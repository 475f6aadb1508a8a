import QuickBeam.Lib.Binary64
import QuickBeam.Lib.Decimal

/-!
# Calls of host imports (`worker.zig`)

`quickbeam_wasm_host_invoke_js_impl` takes the raw arguments of an imported function to terms and
to the arguments of a callback, and what the callback returns back to a slot.  A 64-bit integer
goes through as its decimal text.

The conversions between floats and their bits, and the functions of `beam`, are parameters.
Texts are UTF-8.
-/

namespace QuickBeam.Native.HostImport

open QuickBeam.Lib

/-! ### Values and terms -/

inductive ValueType where
  | i32
  | i64
  | f32
  | f64
deriving DecidableEq

structure Signature where
  params : List ValueType
  result : Option ValueType

def ValueType.letter : ValueType → Char
  | .i32 => 'i'
  | .i64 => 'I'
  | .f32 => 'f'
  | .f64 => 'F'

/-- The text that `encode_function_signature` makes. -/
def Signature.text (s : Signature) : List Char :=
  '(' :: (s.params.map ValueType.letter ++ ')' :: (s.result.map ValueType.letter).toList)

inductive Term where
  | int (n : ℤ)
  | float (x : Double)
  | binary (bytes : List UInt8)
  | atom (name : String)
  /-- Lists, maps and the like. -/
  | compound (id : ℕ)
deriving DecidableEq

inductive JsValue where
  /-- Also `undefined`. -/
  | null
  | bool (b : Bool)
  | number (x : Binary64)
  | bigInt (n : ℤ)
  | string (text : List UInt8)
  /-- An `ArrayBuffer` or a typed array. -/
  | buffer (bytes : List UInt8)
  | compound (id : ℕ)
deriving DecidableEq

/-- The slots that `wasm_runtime_invoke_native_raw` passes: one for each parameter, and at least
sixteen. -/
structure RawArgs (count : ℕ) where
  slots : List (BitVec 64)
  length_eq : slots.length = max 16 count

structure Platform where
  /-- `@bitCast` of an `f64`. -/
  float64 : BitVec 64 → Binary64
  /-- `@bitCast` of an `f32`, widened. -/
  float32 : BitVec 32 → Binary64
  bits64 : Binary64 → BitVec 64
  /-- The bits of the `f32` that `@floatCast` gives. -/
  bits32 : Binary64 → BitVec 32
  /-- `beam.make` of an `f64`. -/
  makeFloat : Binary64 → Term
  /-- `beam.get([]const u8, …)`. -/
  getBytes : Term → Option (List UInt8)
  /-- The limit on the nodes of a returned value. -/
  maxNodes : ℕ
  /-- The zeros have different bits. -/
  zeros64 : bits64 (.finite .zero) ≠ bits64 (.finite .negZero)
  zeros32 : bits32 (.finite .zero) ≠ bits32 (.finite .negZero)
  /-- The floats of the BEAM are finite. -/
  makeFloat_finite : ∀ x, makeFloat (.finite x) = .float x
  makeFloat_other : ∀ y, (∀ x, y ≠ .finite x) → ∃ name, makeFloat y = .atom name
  getBytes_binary : ∀ bytes, getBytes (.binary bytes) = some bytes
  getBytes_float : ∀ x, getBytes (.float x) = none
  getBytes_atom : ∀ name, getBytes (.atom name) = none

/-- An error, or undefined behaviour: a cast or an access out of range. -/
inductive Failure where
  | error (name : String)
  | illegal

/-! ### Decimal texts -/

/-- `{d}` of `std.fmt.bufPrint`. -/
def printInt (n : ℤ) : List UInt8 :=
  if n < 0 then 45 :: Decimal.print n.natAbs else Decimal.print n.natAbs

def inI64 (n : ℤ) : Bool := -2 ^ 63 ≤ n && n < 2 ^ 63

def inI32 (n : ℤ) : Bool := -2 ^ 31 ≤ n && n < 2 ^ 31

def parseDigits (text : List UInt8) : Option ℕ :=
  if text = [] ∨ text.head? = some 95 ∨ text.getLast? = some 95 then none
  else if (text.filter (· ≠ 95)).all Decimal.isDigit then some (Decimal.value (text.filter (· ≠ 95)))
  else none

/-- A sign, and what `digits` reads behind it. -/
def signed (digits : List UInt8 → Option ℕ) : List UInt8 → Option ℤ
  | 45 :: rest => (digits rest).map fun n => -Int.ofNat n
  | 43 :: rest => (digits rest).map Int.ofNat
  | text => (digits text).map Int.ofNat

/-- `std.fmt.parseInt(i64, …, 10)`. -/
def parseInt (text : List UInt8) : Option ℤ := (signed parseDigits text).filter inI64

/-! ### Conversions -/

/-- `js_to_beam.convert_number`. -/
def convertNumber : Binary64 → Term
  | .nan => .atom "NaN"
  | .infinity false => .atom "Infinity"
  | .infinity true => .atom "-Infinity"
  | .finite x =>
    if x.units % Double.unitsPerOne = 0 ∧ x.units ≤ 9007199254740991 * Double.unitsPerOne then
      .int x.trunc
    else .float x

/-- `js_to_beam.convert_recursive`. -/
def toTerm (p : Platform) (v : JsValue) : Term :=
  if p.maxNodes = 0 then .atom "nil"
  else match v with
    | .null => .atom "nil"
    | .bool b => .atom (if b then "true" else "false")
    | .number x => convertNumber x
    | .bigInt n => if inI64 n then .int n else .binary (printInt n)
    | .string text => .binary text
    | .buffer bytes => .binary bytes
    | .compound id => .compound id

/-- `beam_to_js.convert_recursive` with the table of known atoms. -/
def toJs : Term → JsValue
  | .int n => .number (Binary64.ofInt n)
  | .float x => .number (.finite x)
  | .binary bytes => .string bytes
  | .atom name =>
    if name = "nil" ∨ name = "undefined" then .null
    else if name = "true" then .bool true
    else if name = "false" then .bool false
    else .string name.toUTF8.toList
  | .compound id => .compound id

def parseI64Term (p : Platform) (term : Term) : Except Failure ℤ :=
  match term with
  | .int n => if inI64 n then .ok n else text term
  | _ => text term
where
  text (term : Term) : Except Failure ℤ :=
    match (p.getBytes term).bind parseInt with
    | some n => .ok n
    | none => .error (.error "BadArg")

def parseF64Term (p : Platform) (term : Term) : Except Failure Binary64 :=
  match term with
  | .float x => .ok (.finite x)
  | _ => (parseI64Term p term).map Binary64.ofInt

/-! ### Arguments -/

def hostArg (p : Platform) (letter : Char) (raw : BitVec 64) : Except Failure Term :=
  match letter with
  | 'i' => .ok (.int (raw.setWidth 32).toInt)
  | 'I' => .ok (.binary (printInt raw.toInt))
  | 'f' => .ok (p.makeFloat (p.float32 (raw.setWidth 32)))
  | 'F' => .ok (p.makeFloat (p.float64 raw))
  | _ => .error (.error "UnsupportedType")

def index {α : Type} (xs : List α) (i : ℕ) : Except Failure α :=
  match xs[i]? with
  | some x => .ok x
  | none => .error .illegal

def buildArgs (p : Platform) (signature : List Char) (raws : List (BitVec 64)) :
    ℕ → List Term → Except Failure (List Term)
  | i + 2, list => do
    let letter ← index signature (i + 1)
    let raw ← index raws i
    let term ← hostArg p letter raw
    buildArgs p signature raws (i + 1) (term :: list)
  | _, list => .ok list

def buildHostArgsTerm (p : Platform) (signature : List Char) (raws : List (BitVec 64)) :
    Except Failure (List Term) :=
  match signature.findIdx? (· = ')') with
  | some close => buildArgs p signature raws close []
  | none => .error (.error "BadArg")

/-- The arguments of `do_call`, whose buffer holds 64 values. -/
def callArgs (terms : List Term) : List JsValue := (terms.take 64).map toJs

/-! ### Results -/

def setSlot (raws : List (BitVec 64)) (bits : BitVec 64) : Except Failure (List (BitVec 64)) :=
  match raws with
  | [] => .error .illegal
  | _ :: rest => .ok (bits :: rest)

def intCast (n : ℤ) : Except Failure (BitVec 32) :=
  if inI32 n then .ok (BitVec.ofInt 32 n) else .error .illegal

def writeHostResult (p : Platform) (term : Term) (signature : List Char) (raws : List (BitVec 64)) :
    Except Failure (List (BitVec 64)) :=
  match signature.findIdx? (· = ')') with
  | none => .error (.error "BadArg")
  | some close =>
    match signature[close + 1]? with
    | none => .ok raws
    | some 'i' => do
      let value ← parseI64Term p term
      setSlot raws ((← intCast value).setWidth 64)
    | some 'I' => do
      let value ← parseI64Term p term
      setSlot raws (BitVec.ofInt 64 value)
    | some 'f' => do
      let value ← parseF64Term p term
      setSlot raws ((p.bits32 value).setWidth 64)
    | some 'F' => do
      let value ← parseF64Term p term
      setSlot raws (p.bits64 value)
    | some _ => .error (.error "UnsupportedType")

/-! ### A call -/

/-- How the callback ends, a promise included. -/
inductive CallResult where
  | failed (message : String)
  | returned (v : JsValue)

inductive Outcome where
  | stored (slots : List (BitVec 64))
  | error (message : String)
  | illegal

/-- What `write_host_result` leaves. -/
def Outcome.ofResult : Except Failure (List (BitVec 64)) → Outcome
  | .ok slots => .stored slots
  | .error .illegal => .illegal
  | .error (.error _) => .error "invalid host import return value"

structure Trace where
  /-- The arguments of the calls of the callback. -/
  calls : List (List JsValue)
  outcome : Outcome

/-- `quickbeam_wasm_host_invoke_js_impl` with a callback that ends as `ret`. -/
def invoke (p : Platform) (signature : List Char) (raws : List (BitVec 64)) (ret : CallResult) : Trace :=
  match buildHostArgsTerm p signature raws with
  | .error .illegal => ⟨[], .illegal⟩
  | .error (.error _) => ⟨[], .error "invalid host import args"⟩
  | .ok terms =>
    ⟨[callArgs terms],
      match ret with
      | .failed message => .error (if message = "" then "host import callback failed" else message)
      | .returned v => .ofResult (writeHostResult p (toTerm p v) signature raws)⟩

/-! ### Marshalling -/

inductive Number where
  | int (n : ℤ)
  | double (x : Binary64)

def Number.toInteger : Number → ℤ
  | .int n => n
  | .double (.finite x) => x.trunc
  | .double _ => 0

def Number.toDouble : Number → Binary64
  | .int n => Binary64.ofInt n
  | .double x => x

def plainDigits (text : List UInt8) : Option ℕ :=
  if text ≠ [] ∧ text.all Decimal.isDigit then some (Decimal.value text) else none

def number? : JsValue → Option Number
  | .number x => some (.double x)
  | .bigInt n => some (.int n)
  | .string text => (signed plainDigits text).map .int
  | _ => none

/-- A number in a result slot; integers wrap around. -/
def ValueType.bits (p : Platform) (n : Number) : ValueType → BitVec 64
  | .i32 => (BitVec.ofInt 32 n.toInteger).setWidth 64
  | .i64 => BitVec.ofInt 64 n.toInteger
  | .f32 => (p.bits32 n.toDouble).setWidth 64
  | .f64 => p.bits64 n.toDouble

/-- An argument is the value of a slot at its type; a 64-bit integer is its decimal text. -/
def ValueType.Reads (p : Platform) (raw : BitVec 64) (arg : JsValue) : ValueType → Prop
  | .i32 => arg = .number (Binary64.ofInt (raw.setWidth 32).toInt)
  | .i64 => ∃ text, arg = .string text ∧ signed plainDigits text = some raw.toInt
  | .f32 => arg = .number (p.float32 (raw.setWidth 32))
  | .f64 => arg = .number (p.float64 raw)

def ResultOk (p : Platform) (result : Option ValueType) (raws : List (BitVec 64)) (ret : CallResult) :
    Outcome → Prop
  | .error _ => True
  | .illegal => False
  | .stored slots =>
    match result with
    | none => slots = raws
    | some ty => ∃ v n, ret = .returned v ∧ number? v = some n ∧ slots = raws.set 0 (ty.bits p n)

structure Marshalled (p : Platform) (sig : Signature) (raws : List (BitVec 64)) (ret : CallResult)
    (trace : Trace) : Prop where
  /-- One call, with an argument for each parameter. -/
  args : ∃ args, trace.calls = [args] ∧
    List.Forall₂ (fun slot arg => slot.1.Reads p slot.2 arg) (sig.params.zip raws) args
  result : ResultOk p sig.result raws ret trace.outcome

def ValueType.Fits (p : Platform) (raw : BitVec 64) : ValueType → Prop
  | .i32 | .i64 => True
  | .f32 => ∃ x, p.float32 (raw.setWidth 32) = .finite x
  | .f64 => ∃ x, p.float64 raw = .finite x

def integer? (p : Platform) : JsValue → Option ℤ
  | .number (.finite x) =>
    if x.units % Double.unitsPerOne = 0 ∧ x.units ≤ 9007199254740991 * Double.unitsPerOne then
      some x.trunc
    else none
  | .bigInt n => if inI64 n then some n else none
  | .string text => parseInt text
  | .buffer bytes => parseInt bytes
  | .compound id => (p.getBytes (.compound id)).bind parseInt
  | _ => none

/-- A value that is read as an integer is a number, a BigInt or a decimal text, and has 32 bits where
the result has; and negative zero is not returned as a float. -/
structure ResultFits (p : Platform) (ty : ValueType) (v : JsValue) : Prop where
  number : ∀ n, integer? p v = some n → (number? v).isSome
  width : ty = .i32 → ∀ n, integer? p v = some n → inI32 n
  zero : ty = .f32 ∨ ty = .f64 → v ≠ .number (.finite .negZero)

structure Fits (p : Platform) (sig : Signature) (raws : List (BitVec 64)) (ret : CallResult) : Prop where
  count : sig.params.length ≤ 64
  floats : ∀ slot ∈ sig.params.zip raws, slot.1.Fits p slot.2
  result : ∀ ty v, sig.result = some ty → ret = .returned v → p.maxNodes = 0 ∨ ResultFits p ty v

/-! ### Decimal texts are read back -/

theorem plainDigits_print (n : ℕ) : plainDigits (Decimal.print n) = some n := by
  have hall : (Decimal.print n).all Decimal.isDigit = true :=
    List.all_eq_true.2 (Decimal.isDigit_print n)
  rw [plainDigits, if_pos ⟨Decimal.print_ne_nil n, hall⟩, Decimal.value_print]

variable {digits : List UInt8 → Option ℕ} {text : List UInt8}

theorem signed_of_digit (h : ∀ c ∈ text, Decimal.isDigit c) :
    signed digits text = (digits text).map Int.ofNat := by
  unfold signed
  split
  · exact absurd (h 45 List.mem_cons_self) (by decide)
  · exact absurd (h 43 List.mem_cons_self) (by decide)
  · rfl

theorem signed_printInt (h : ∀ n, digits (Decimal.print n) = some n) (n : ℤ) :
    signed digits (printInt n) = some n := by
  unfold printInt
  split
  · rename_i hneg
    show (digits (Decimal.print n.natAbs)).map (fun m => -Int.ofNat m) = some n
    rw [h, Option.map_some]
    refine congrArg some ?_
    show -(n.natAbs : ℤ) = n
    omega
  · rename_i hpos
    rw [signed_of_digit (Decimal.isDigit_print _), h, Option.map_some]
    congr 1
    exact Int.natAbs_of_nonneg (not_lt.1 hpos)

theorem parseDigits_of_plain {n : ℕ} (h : plainDigits text = some n) :
    parseDigits text = some n := by
  unfold plainDigits at h
  split at h
  swap
  · cases h
  rename_i hplain
  have hall := List.all_eq_true.1 hplain.2
  have hnot : ∀ c ∈ text, c ≠ 95 := by
    rintro c hc rfl
    exact absurd (hall 95 hc) (by decide)
  have hfilter : text.filter (· ≠ 95) = text :=
    List.filter_eq_self.2 fun c hc => decide_eq_true (hnot c hc)
  have hends : ¬ (text = [] ∨ text.head? = some 95 ∨ text.getLast? = some 95) := by
    rintro (hnil | hhead | hlast)
    · exact hplain.1 hnil
    · exact hnot 95 (List.mem_of_mem_head? hhead) rfl
    · exact hnot 95 (List.mem_of_getLast? hlast) rfl
  rw [parseDigits, if_neg hends, hfilter, if_pos hplain.2]
  exact h

theorem signed_of_plain {n : ℤ} (h : signed plainDigits text = some n) :
    signed parseDigits text = some n := by
  unfold signed at h ⊢
  split at h
  · obtain ⟨m, hm, rfl⟩ := Option.map_eq_some_iff.1 h
    simp only [parseDigits_of_plain hm, Option.map_some]
  · obtain ⟨m, hm, rfl⟩ := Option.map_eq_some_iff.1 h
    simp only [parseDigits_of_plain hm, Option.map_some]
  · obtain ⟨m, hm, rfl⟩ := Option.map_eq_some_iff.1 h
    rw [parseDigits_of_plain hm, Option.map_some]

theorem parseInt_printInt {n : ℤ} (hn : inI64 n = false) : parseInt (printInt n) = none := by
  rw [parseInt, signed_printInt fun n => parseDigits_of_plain (plainDigits_print n)]
  exact if_neg (by rw [hn]; exact Bool.false_ne_true)

/-! ### The signature -/

section Text

variable (sig : Signature)

theorem letter_ne_close (ty : ValueType) : ty.letter ≠ ')' := by cases ty <;> decide

theorem findIdx_close : sig.text.findIdx? (· = ')') = some (sig.params.length + 1) := by
  have hparams : (sig.params.map ValueType.letter).findIdx? (· = ')') = none := by
    refine List.findIdx?_eq_none_iff.2 fun letter hletter => ?_
    obtain ⟨ty, -, rfl⟩ := List.mem_map.1 hletter
    exact decide_eq_false (letter_ne_close ty)
  show (('(' :: _ : List Char).findIdx? _) = _
  rw [List.findIdx?_cons, if_neg (by decide), List.findIdx?_append, hparams, List.findIdx?_cons,
    if_pos (by decide), List.length_map, Option.none_or, Option.map_some, Option.map_some,
    Nat.zero_add]

theorem text_param {i : ℕ} (hi : i < sig.params.length) :
    sig.text[i + 1]? = some (sig.params[i].letter) := by
  show (sig.params.map ValueType.letter ++ _)[i]? = _
  rw [List.getElem?_append_left (by rwa [List.length_map]), List.getElem?_map,
    List.getElem?_eq_getElem hi]
  rfl

theorem text_result : sig.text[sig.params.length + 1 + 1]? = sig.result.map ValueType.letter := by
  show (sig.params.map ValueType.letter ++ _)[sig.params.length + 1]? = _
  rw [List.getElem?_append_right (by rw [List.length_map]; omega), List.length_map,
    Nat.add_sub_cancel_left]
  cases sig.result <;> rfl

end Text

/-! ### Arguments -/

def ValueType.term (p : Platform) (raw : BitVec 64) : ValueType → Term
  | .i32 => .int (raw.setWidth 32).toInt
  | .i64 => .binary (printInt raw.toInt)
  | .f32 => p.makeFloat (p.float32 (raw.setWidth 32))
  | .f64 => p.makeFloat (p.float64 raw)

section Args

variable (p : Platform) (sig : Signature)

theorem hostArg_letter (ty : ValueType) (raw : BitVec 64) :
    hostArg p ty.letter raw = .ok (ty.term p raw) := by cases ty <;> rfl

theorem buildArgs_eq {raws : List (BitVec 64)} (hlen : sig.params.length ≤ raws.length) :
    ∀ i ≤ sig.params.length, ∀ list, buildArgs p sig.text raws (i + 1) list =
      .ok (((sig.params.zip raws).take i).map (fun slot => slot.1.term p slot.2) ++ list) := by
  intro i
  induction i with
  | zero => exact fun _ list => rfl
  | succ i ih =>
    intro hi list
    have hraw : i < raws.length := by omega
    have hletter : index sig.text (i + 1) = .ok sig.params[i].letter := by rw [index, text_param sig hi]
    have hslot : index raws i = .ok raws[i] := by rw [index, List.getElem?_eq_getElem hraw]
    have hzip : (sig.params.zip raws).take (i + 1) =
        (sig.params.zip raws).take i ++ [(sig.params[i], raws[i])] := by
      rw [List.take_add_one, List.getElem?_eq_getElem (by rw [List.length_zip]; omega),
        List.getElem_zip]
      rfl
    show (index sig.text (i + 1) >>= fun letter => index raws i >>= fun raw =>
      hostArg p letter raw >>= fun term => buildArgs p sig.text raws (i + 1) (term :: list)) = _
    rw [hletter, hslot]
    show (hostArg p sig.params[i].letter raws[i] >>= fun term =>
      buildArgs p sig.text raws (i + 1) (term :: list)) = _
    rw [hostArg_letter]
    show buildArgs p sig.text raws (i + 1) _ = _
    rw [ih (by omega), hzip, List.map_append, List.append_assoc]
    rfl

theorem buildHostArgsTerm_eq (raws : RawArgs sig.params.length) :
    buildHostArgsTerm p sig.text raws.slots =
      .ok ((sig.params.zip raws.slots).map fun slot => slot.1.term p slot.2) := by
  have hlen : sig.params.length ≤ raws.slots.length := raws.length_eq ▸ Nat.le_max_right ..
  have hall : (sig.params.zip raws.slots).take sig.params.length = sig.params.zip raws.slots :=
    List.take_of_length_le (by rw [List.length_zip]; omega)
  rw [buildHostArgsTerm, findIdx_close]
  show buildArgs p sig.text raws.slots (sig.params.length + 1) [] = _
  rw [buildArgs_eq p sig hlen _ le_rfl, hall, List.append_nil]

theorem toJs_makeFloat_iff {y : Binary64} :
    toJs (p.makeFloat y) = .number y ↔ ∃ x, y = .finite x := by
  constructor
  · intro h
    by_contra hnot
    obtain ⟨name, hname⟩ := p.makeFloat_other y (not_exists.1 hnot)
    rw [hname] at h
    dsimp only [toJs] at h
    split_ifs at h
  · rintro ⟨x, rfl⟩
    rw [p.makeFloat_finite]
    rfl

theorem reads_iff (ty : ValueType) (raw : BitVec 64) :
    ty.Reads p raw (toJs (ty.term p raw)) ↔ ty.Fits p raw := by
  cases ty with
  | i32 => exact ⟨fun _ => trivial, fun _ => rfl⟩
  | i64 => exact ⟨fun _ => trivial, fun _ => ⟨_, rfl, signed_printInt plainDigits_print _⟩⟩
  | f32 => exact toJs_makeFloat_iff p
  | f64 => exact toJs_makeFloat_iff p

theorem args_iff (raws : RawArgs sig.params.length) :
    List.Forall₂ (fun slot arg => slot.1.Reads p slot.2 arg) (sig.params.zip raws.slots)
        (callArgs ((sig.params.zip raws.slots).map fun slot => slot.1.term p slot.2)) ↔
      sig.params.length ≤ 64 ∧ ∀ slot ∈ sig.params.zip raws.slots, slot.1.Fits p slot.2 := by
  have hlen : (sig.params.zip raws.slots).length = sig.params.length := by
    rw [List.length_zip, raws.length_eq]
    omega
  have hall : sig.params.length ≤ 64 →
      (List.Forall₂ (fun slot arg => slot.1.Reads p slot.2 arg) (sig.params.zip raws.slots)
        (callArgs ((sig.params.zip raws.slots).map fun slot => slot.1.term p slot.2)) ↔
      ∀ slot ∈ sig.params.zip raws.slots, slot.1.Fits p slot.2) := by
    intro h
    rw [callArgs, List.take_of_length_le (by rw [List.length_map, hlen]; exact h), List.map_map,
      List.forall₂_map_right_iff, List.forall₂_same]
    exact forall₂_congr fun slot _ => reads_iff p slot.1 slot.2
  constructor
  · intro h
    have hcount := h.length_eq
    rw [callArgs, List.length_map, List.length_take, List.length_map, hlen] at hcount
    have hle : sig.params.length ≤ 64 := by omega
    exact ⟨hle, (hall hle).1 h⟩
  · exact fun h => (hall h.1).2 h.2

end Args

/-! ### Results -/

section Results

variable (p : Platform) {v : JsValue} {n : ℤ}

theorem parseI64Term_toTerm (hnodes : p.maxNodes ≠ 0) (v : JsValue) :
    parseI64Term p (toTerm p v) =
      match integer? p v with
      | some n => .ok n
      | none => .error (.error "BadArg") := by
  have hterm : ∀ name, parseI64Term.text p (.atom name) = .error (.error "BadArg") := by
    intro name
    rw [parseI64Term.text, p.getBytes_atom]
    rfl
  have htext : ∀ bytes, parseI64Term.text p (.binary bytes) =
      match parseInt bytes with
      | some n => .ok n
      | none => .error (.error "BadArg") := by
    intro bytes
    rw [parseI64Term.text, p.getBytes_binary]
    rfl
  unfold toTerm
  rw [if_neg hnodes]
  cases v with
  | null => exact hterm _
  | bool b => exact hterm _
  | bigInt n =>
    dsimp only [integer?]
    cases hn : inI64 n with
    | true => exact if_pos hn
    | false =>
      refine (htext _).trans ?_
      rw [parseInt_printInt hn]
      rfl
  | string text => exact htext _
  | buffer bytes => exact htext _
  | compound id => rfl
  | number x =>
    cases x with
    | nan => exact hterm _
    | infinity neg => cases neg <;> exact hterm _
    | finite x =>
      dsimp only [integer?, convertNumber]
      split
      · rename_i hwhole
        refine if_pos ?_
        have hdiv : x.units / Double.unitsPerOne ≤ 9007199254740991 :=
          Nat.div_le_of_le_mul (Nat.mul_comm _ Double.unitsPerOne ▸ hwhole.2)
        unfold inI64 Double.trunc
        generalize x.units / Double.unitsPerOne = q at hdiv
        rw [Bool.and_eq_true, decide_eq_true_eq, decide_eq_true_eq]
        split <;> omega
      · show parseI64Term.text p (.float x) = _
        rw [parseI64Term.text, p.getBytes_float]
        rfl

variable {m : Number}

theorem toInteger_of_integer (hint : integer? p v = some n) (hm : number? v = some m) :
    m.toInteger = n := by
  cases v with
  | null | bool | buffer | compound => cases hm
  | number x =>
    cases hm
    cases x with
    | nan | infinity => cases hint
    | finite x =>
      dsimp only [integer?] at hint
      split at hint
      · exact Option.some.inj hint
      · cases hint
  | bigInt k =>
    cases hm
    dsimp only [integer?] at hint
    split at hint
    · exact Option.some.inj hint
    · cases hint
  | string text =>
    obtain ⟨k, hk, rfl⟩ := Option.map_eq_some_iff.1 hm
    have hparse := (Option.filter_eq_some_iff.1 hint).1
    rw [signed_of_plain hk] at hparse
    exact Option.some.inj hparse

theorem toDouble_of_integer (hint : integer? p v = some n) (hm : number? v = some m)
    (hzero : v ≠ .number (.finite .negZero)) : m.toDouble = Binary64.ofInt n := by
  cases m with
  | int k => rw [← toInteger_of_integer p hint hm]; rfl
  | double x =>
    cases v with
    | null | bool | buffer | compound => cases hm
    | bigInt k => cases hm
    | string text => obtain ⟨k, -, hk⟩ := Option.map_eq_some_iff.1 hm; cases hk
    | number y =>
      cases hm
      cases x with
      | nan | infinity => cases hint
      | finite x =>
        dsimp only [integer?] at hint
        split at hint
        · rename_i hwhole
          rw [← Option.some.inj hint, Binary64.ofInt_trunc hwhole.1 fun h => hzero (h ▸ rfl)]
          rfl
        · cases hint

/-- `write_host_result` at a result type. -/
def writeAs (term : Term) (raws : List (BitVec 64)) : ValueType → Except Failure (List (BitVec 64))
  | .i32 => parseI64Term p term >>= fun value => intCast value >>= fun bits =>
      setSlot raws (bits.setWidth 64)
  | .i64 => parseI64Term p term >>= fun value => setSlot raws (BitVec.ofInt 64 value)
  | .f32 => parseF64Term p term >>= fun value => setSlot raws ((p.bits32 value).setWidth 64)
  | .f64 => parseF64Term p term >>= fun value => setSlot raws (p.bits64 value)

theorem writeHostResult_eq (sig : Signature) (term : Term) (raws : List (BitVec 64)) :
    writeHostResult p term sig.text raws =
      match sig.result with
      | none => .ok raws
      | some ty => writeAs p term raws ty := by
  rw [writeHostResult, findIdx_close]
  dsimp only
  rw [text_result]
  cases sig.result with
  | none => rfl
  | some ty => cases ty <;> rfl

theorem parseF64Term_toTerm (hnodes : p.maxNodes ≠ 0) (v : JsValue) :
    parseF64Term p (toTerm p v) = (parseI64Term p (toTerm p v)).map Binary64.ofInt ∨
      ∃ x, v = .number (.finite x) ∧ integer? p v = none ∧
        parseF64Term p (toTerm p v) = .ok (.finite x) := by
  cases hterm : toTerm p v with
  | int | binary | atom | compound => exact .inl rfl
  | float x =>
    refine .inr ⟨x, ?_⟩
    unfold toTerm at hterm
    rw [if_neg hnodes] at hterm
    cases v with
    | null | bool | string | buffer | compound => cases hterm
    | bigInt n =>
      dsimp only at hterm
      split at hterm <;> cases hterm
    | number y =>
      cases y with
      | nan => cases hterm
      | infinity neg => cases neg <;> cases hterm
      | finite y =>
        dsimp only [convertNumber] at hterm
        split at hterm
        · cases hterm
        · rename_i hwhole
          cases hterm
          exact ⟨rfl, if_neg hwhole, rfl⟩

variable {raws : List (BitVec 64)}

theorem setSlot_eq (hraws : raws ≠ []) (bits : BitVec 64) :
    setSlot raws bits = .ok (raws.set 0 bits) := by
  cases raws with
  | nil => exact absurd rfl hraws
  | cons raw rest => rfl

variable {ty : ValueType}

theorem resultOk_stored (hraws : raws ≠ []) {bits : BitVec 64} :
    ResultOk p (some ty) raws (.returned v) (.stored (raws.set 0 bits)) ↔
      ∃ m, number? v = some m ∧ bits = ty.bits p m := by
  constructor
  · rintro ⟨w, m, hret, hm, hslots⟩
    cases hret
    refine ⟨m, hm, ?_⟩
    cases raws with
    | nil => exact absurd rfl hraws
    | cons raw rest => exact (List.cons.inj hslots).1
  · rintro ⟨m, hm, rfl⟩
    exact ⟨v, m, rfl, hm, rfl⟩

theorem integerResult_iff (hnodes : p.maxNodes ≠ 0) (hraws : raws ≠ [])
    (hty : ty = .i32 ∨ ty = .i64) :
    ResultOk p (some ty) raws (.returned v) (.ofResult (writeAs p (toTerm p v) raws ty)) ↔
      ResultFits p ty v := by
  have hparse := parseI64Term_toTerm p hnodes v
  have hzero : ¬ (ty = .f32 ∨ ty = .f64) := by rcases hty with rfl | rfl <;> rintro (h | h) <;> cases h
  cases hint : integer? p v with
  | none =>
    rw [hint] at hparse
    have hfits : ResultFits p ty v := by
      constructor
      · intro n hn
        rw [hint] at hn
        cases hn
      · intro _ n hn
        rw [hint] at hn
        cases hn
      · exact fun h => absurd h hzero
    refine ⟨fun _ => hfits, fun _ => ?_⟩
    rcases hty with rfl | rfl <;> rw [writeAs, hparse] <;> trivial
  | some n =>
    rw [hint] at hparse
    have hstored : (∃ m, number? v = some m ∧ BitVec.ofInt 64 n = ValueType.bits p m .i64) ↔
        (number? v).isSome := by
      rw [Option.isSome_iff_exists]
      refine exists_congr fun m => ⟨And.left, fun hm => ⟨hm, ?_⟩⟩
      rw [ValueType.bits, toInteger_of_integer p hint hm]
    rcases hty with rfl | rfl
    · rw [writeAs, hparse]
      show ResultOk p _ raws _ (.ofResult (intCast n >>= fun bits => setSlot raws (bits.setWidth 64))) ↔ _
      by_cases hwidth : inI32 n = true
      · rw [intCast, if_pos hwidth]
        show ResultOk p _ raws _ (.ofResult (setSlot raws _)) ↔ _
        rw [setSlot_eq hraws]
        refine (resultOk_stored p hraws).trans ⟨?_, fun h => ?_⟩
        · rintro ⟨m, hm, -⟩
          refine ⟨fun k _ => by rw [hm]; rfl, fun _ k hk => ?_, fun h => absurd h hzero⟩
          rwa [← Option.some.inj (hint.symm.trans hk)]
        · obtain ⟨m, hm⟩ := Option.isSome_iff_exists.1 (h.number n hint)
          refine ⟨m, hm, ?_⟩
          rw [ValueType.bits, toInteger_of_integer p hint hm]
      · rw [intCast, if_neg hwidth]
        exact ⟨fun h => h.elim, fun h => absurd (h.width rfl n hint) hwidth⟩
    · rw [writeAs, hparse]
      show ResultOk p _ raws _ (.ofResult (setSlot raws _)) ↔ _
      rw [setSlot_eq hraws]
      refine (resultOk_stored p hraws).trans (hstored.trans ⟨fun h => ?_, fun h => h.number n hint⟩)
      exact ⟨fun _ _ => h, nofun, fun h => absurd h hzero⟩

theorem floatResult_iff (hnodes : p.maxNodes ≠ 0) (hraws : raws ≠ [])
    (hty : ty = .f32 ∨ ty = .f64) {bits : Binary64 → BitVec 64}
    (hbits : ∀ m, ty.bits p m = bits m.toDouble)
    (hzeros : bits (.finite .zero) ≠ bits (.finite .negZero))
    (hwrite : writeAs p (toTerm p v) raws ty = (parseF64Term p (toTerm p v) >>= fun value =>
    setSlot raws (bits value))) :
    ResultOk p (some ty) raws (.returned v) (.ofResult (writeAs p (toTerm p v) raws ty)) ↔
      ResultFits p ty v := by
  have hwidth : ty ≠ .i32 := by rcases hty with rfl | rfl <;> nofun
  have hnegZero : integer? p (.number (.finite .negZero)) = some 0 := by
    have hzero : (Double.negZero.units % Double.unitsPerOne = 0 ∧
        Double.negZero.units ≤ 9007199254740991 * Double.unitsPerOne) ∧ Double.negZero.trunc = 0 := by
      decide +kernel
    dsimp only [integer?]
    rw [if_pos hzero.1, hzero.2]
  rw [hwrite]
  rcases parseF64Term_toTerm p hnodes v with hread | ⟨x, rfl, hint, hread⟩
  · rw [hread, parseI64Term_toTerm p hnodes v]
    cases hint : integer? p v with
    | none =>
      refine ⟨fun _ => ⟨?_, fun h => absurd h hwidth, fun _ => ?_⟩, fun _ => trivial⟩
      · intro n hn
        rw [hint] at hn
        cases hn
      · rintro rfl
        cases hint.symm.trans hnegZero
    | some n =>
      show ResultOk p _ raws _ (.ofResult (setSlot raws (bits (Binary64.ofInt n)))) ↔ _
      rw [setSlot_eq hraws]
      refine (resultOk_stored p hraws).trans ⟨?_, fun h => ?_⟩
      · rintro ⟨m, hm, heq⟩
        refine ⟨fun k _ => by rw [hm]; rfl, fun h => absurd h hwidth, ?_⟩
        rintro _ rfl
        cases Option.some.inj (hint.symm.trans hnegZero)
        cases hm
        rw [hbits, Binary64.ofInt_of_zero] at heq
        exact hzeros heq
      · obtain ⟨m, hm⟩ := Option.isSome_iff_exists.1 (h.number n hint)
        refine ⟨m, hm, ?_⟩
        rw [hbits, toDouble_of_integer p hint hm (h.zero hty)]
  · rw [hread]
    show ResultOk p _ raws _ (.ofResult (setSlot raws (bits (.finite x)))) ↔ _
    rw [setSlot_eq hraws]
    refine (resultOk_stored p hraws).trans ⟨fun _ => ⟨fun _ _ => rfl, fun h => absurd h hwidth, ?_⟩,
      fun _ => ⟨_, rfl, (hbits (.double (.finite x))).symm⟩⟩
    rintro _ h
    rw [h] at hint
    cases hint.symm.trans hnegZero

theorem resultOk_iff (hnodes : p.maxNodes ≠ 0) (hraws : raws ≠ []) (ty : ValueType) :
    ResultOk p (some ty) raws (.returned v) (.ofResult (writeAs p (toTerm p v) raws ty)) ↔
      ResultFits p ty v := by
  cases ty with
  | i32 => exact integerResult_iff p hnodes hraws (.inl rfl)
  | i64 => exact integerResult_iff p hnodes hraws (.inr rfl)
  | f32 =>
    refine floatResult_iff p hnodes hraws (.inl rfl) (fun _ => rfl) (fun h => p.zeros32 ?_) rfl
    have hnarrow := congrArg (BitVec.setWidth 32) h
    rwa [BitVec.setWidth_setWidth_of_le _ (by decide), BitVec.setWidth_setWidth_of_le _ (by decide),
      BitVec.setWidth_eq, BitVec.setWidth_eq] at hnarrow
  | f64 => exact floatResult_iff p hnodes hraws (.inr rfl) (fun _ => rfl) p.zeros64 rfl

end Results

theorem RawArgs.ne_nil {count : ℕ} (raws : RawArgs count) : raws.slots ≠ [] := by
  intro hnil
  have hlen := raws.length_eq
  rw [hnil, List.length_nil] at hlen
  omega

theorem result_iff (p : Platform) (sig : Signature) (raws : RawArgs sig.params.length) (v : JsValue) :
    ResultOk p sig.result raws.slots (.returned v)
        (.ofResult (writeHostResult p (toTerm p v) sig.text raws.slots)) ↔
      ∀ ty, sig.result = some ty → p.maxNodes = 0 ∨ ResultFits p ty v := by
  rw [writeHostResult_eq]
  cases sig.result with
  | none => exact ⟨fun _ => nofun, fun _ => rfl⟩
  | some ty =>
    by_cases hnodes : p.maxNodes = 0
    · -- Nothing is converted.
      have hnil : toTerm p v = .atom "nil" := if_pos hnodes
      have hread : parseI64Term p (.atom "nil") = .error (.error "BadArg") := by
        show parseI64Term.text p (.atom "nil") = _
        rw [parseI64Term.text, p.getBytes_atom]
        rfl
      refine ⟨fun _ _ _ => .inl hnodes, fun _ => ?_⟩
      rw [hnil]
      cases ty <;> simp only [writeAs, parseF64Term, hread] <;> trivial
    · refine (resultOk_iff p hnodes raws.ne_nil ty).trans ⟨?_, fun h => (h ty rfl).resolve_left hnodes⟩
      rintro h _ ⟨⟩
      exact .inr h

section Call

variable {p : Platform} {sig : Signature} {raws : RawArgs sig.params.length} {ret : CallResult}

theorem invoke_eq : invoke p sig.text raws.slots ret =
    ⟨[callArgs ((sig.params.zip raws.slots).map fun slot => slot.1.term p slot.2)],
      match ret with
      | .failed message => .error (if message = "" then "host import callback failed" else message)
      | .returned v => .ofResult (writeHostResult p (toTerm p v) sig.text raws.slots)⟩ := by
  unfold invoke
  rw [buildHostArgsTerm_eq]

theorem fits_of_marshalled
    (h : Marshalled p sig raws.slots ret (invoke p sig.text raws.slots ret)) :
    Fits p sig raws.slots ret := by
  rw [invoke_eq] at h
  obtain ⟨⟨args, hcalls, hargs⟩, hresult⟩ := h
  rw [← (List.cons.inj hcalls).1, args_iff] at hargs
  refine ⟨hargs.1, hargs.2, ?_⟩
  rintro ty v hty rfl
  exact (result_iff p sig raws v).1 hresult ty hty

theorem marshalled_of_fits (h : Fits p sig raws.slots ret) :
    Marshalled p sig raws.slots ret (invoke p sig.text raws.slots ret) := by
  rw [invoke_eq]
  refine ⟨⟨_, rfl, (args_iff p sig raws).2 ⟨h.count, h.floats⟩⟩, ?_⟩
  cases ret with
  | failed message => trivial
  | returned v => exact (result_iff p sig raws v).2 fun ty hty => h.result ty v hty rfl

end Call

/-- **A host call is marshalled exactly if it fits.** -/
theorem marshalled_iff (p : Platform) (sig : Signature) (raws : RawArgs sig.params.length)
    (ret : CallResult) :
    Marshalled p sig raws.slots ret (invoke p sig.text raws.slots ret) ↔ Fits p sig raws.slots ret :=
  ⟨fits_of_marshalled, marshalled_of_fits⟩

def somePlatform : Platform where
  float64 _ := .nan
  float32 _ := .nan
  bits64 y := if y = .finite .negZero then 1 else 0
  bits32 y := if y = .finite .negZero then 1 else 0
  makeFloat
    | .finite x => .float x
    | .nan => .atom "NaN"
    | .infinity _ => .atom "infinity"
  getBytes
    | .binary bytes => some bytes
    | _ => none
  maxNodes := 10000
  zeros64 := by decide +kernel
  zeros32 := by decide +kernel
  makeFloat_finite _ := rfl
  makeFloat_other
    | .finite x, h => absurd rfl (h x)
    | .nan, _ => ⟨_, rfl⟩
    | .infinity _, _ => ⟨_, rfl⟩
  getBytes_binary _ := rfl
  getBytes_float _ := rfl
  getBytes_atom _ := rfl

/-- A callback of an `i32` returns `2 ^ 32 - 1`, and one of 65 parameters gets 64 arguments. -/
theorem unsigned_result_and_many_params :
    (¬ ∀ ret, Marshalled somePlatform ⟨[], some .i32⟩ (List.replicate 16 0) ret
      (invoke somePlatform (Signature.text ⟨[], some .i32⟩) (List.replicate 16 0) ret)) ∧
    ¬ ∀ sig : Signature, ∀ raws : RawArgs sig.params.length,
      Marshalled somePlatform sig raws.slots (.returned .null)
        (invoke somePlatform sig.text raws.slots (.returned .null)) := by
  constructor
  · intro h
    have hfits := @fits_of_marshalled somePlatform ⟨[], some .i32⟩ ⟨List.replicate 16 0, rfl⟩
      (.returned (.bigInt (2 ^ 32 - 1))) (h _)
    rcases hfits.result .i32 _ rfl rfl with hnodes | hresult
    · cases hnodes
    · exact absurd (hresult.width rfl (2 ^ 32 - 1) rfl) (by decide)
  · intro h
    have hfits := @fits_of_marshalled somePlatform ⟨List.replicate 65 .i32, none⟩
      ⟨List.replicate 65 0, by decide⟩ (.returned .null) (h _ _)
    exact absurd hfits.count (by decide)

end QuickBeam.Native.HostImport
