import QuickBeam.Lib.Transition
import QuickBeam.Vm.Runtime.State

/-!
# Calls, completion and throws (`interpreter.ex`, `async.ex`, `exception.ex`)

A call enters a function with its caller on the list of callers, or native code, whose boundary
becomes the caller of the JavaScript that it calls.  The functions here end in a tail call, as
those of the source do: `Next` is the call in tail position.

What a frame computes between two calls, which callable an invocation finds, and how far native
code has come are the events of `step`.  Promises and errors are the `world`; a function of an
async kind is the only one whose code awaits.
-/

namespace QuickBeam.Vm.Runtime.Calls

open QuickBeam.Lib QuickBeam.Vm.Program

/-! ### The world -/

structure TraceFrame where
  function : ℕ
  pc : ℕ
deriving DecidableEq

structure Env (W : Type) where
  newPromise : W → ℕ × W
  settle : W → ℕ → Except Value Value → W
  settleAssimilated : W → ℕ → Except Value Value → W
  completeThenGetter : W → ℕ → Value → W
  completeReaction : W → ℕ → Bool → Value → W
  aggregateInto : W → ℕ → W
  materialize : W → Value → Value × W
  throwState : W → Value → Value × List TraceFrame × W
  thrown : Value → List TraceFrame → Value
  toJsError : W → Value → List TraceFrame → Value

/-- A missing clause, or a struct without the field. -/
inductive Defect where
  | noClause
  | noField
deriving DecidableEq

inductive Next (W : Type) where
  | run (frame : Frame) (execution : State W)
  | dispatch (caller : Caller) (execution : State W) (tail : Bool)
  /-- Native code goes on, with the value of its last call. -/
  | resume (boundary : Caller) (value : Option Value) (execution : State W)
  | return_ (value : Value) (execution : State W)
  | throwFrom (reason : Value) (caller : Caller) (execution : State W)
  | ok (value : Value) (execution : State W)
  | idle (execution : State W)
  | suspended (frame : Frame) (execution : State W)
  | uncaught (error : Value) (execution : State W)
  | stackLimit (depth : ℕ) (execution : State W)
  /-- Any other limit, or an unsupported instruction. -/
  | stopped (execution : State W)
  | crash (defect : Defect)

section Functions

variable {W : Type} (env : Env W)

/-! ### Entering a function -/

def enterSyncCall (function : Function) (callable : Value) (closureRefs : List SlotRef)
    (arguments : List Value) (this : Value) (caller : Caller) (s : State W) (tail : Bool) :
    Next W :=
  let depth := if tail then s.depth else s.depth + 1
  if s.maxStackDepth < depth then .stackLimit depth s
  else
    .run (newFrame function callable arguments this closureRefs)
      (if tail then s else { s with callers := caller :: s.callers, depth })

def asyncMode (caller : Caller) (tail : Bool) : AsyncMode :=
  match caller with
  | .reaction _ _ _ => .reaction
  | .promiseExecutor _ _ _ _ => .executor
  | .thenable _ _ => .thenable
  | _ => if tail then .return_ else .push

/-- `Async.enter/8`: the boundary is pushed for a tail call as well. -/
def enterAsyncCall (function : Function) (callable : Value) (closureRefs : List SlotRef)
    (arguments : List Value) (this : Value) (caller : Caller) (s : State W) (tail : Bool) :
    Next W :=
  let depth := if tail then s.depth else s.depth + 1
  if s.maxStackDepth < depth then .stackLimit depth s
  else
    let (promise, world) := env.newPromise s.world
    let boundary : Caller :=
      .async promise (if tail then .none else caller) s.depth (asyncMode caller tail)
    .run (newFrame function callable arguments this closureRefs)
      { s with callers := boundary :: s.callers, depth, world }

def enterPlannedCall (function : Function) (callable : Value) (closureRefs : List SlotRef)
    (arguments : List Value) (this : Value) (caller : Caller) (s : State W) (tail : Bool) :
    Next W :=
  if function.funcKind = 2 then
    enterAsyncCall env function callable closureRefs arguments this caller s tail
  else enterSyncCall function callable closureRefs arguments this caller s tail

/-! ### Completion -/

def constructorObject : Value → Bool
  | .reference _ => true
  | .promise _ => true
  | .symbol _ => true
  | .function _ => true
  | .array _ => true
  | .object _ => true
  | _ => false

def continueAfterThenGetter (continuation : Caller) (s : State W) : Next W :=
  match continuation with
  | .frame frame => .run frame s
  | .iterator _ _ _ _ _ => .resume continuation none s
  | .none => .idle s
  | _ => .crash .noClause

/-- `complete_call_result/4`; any other caller is taken for a frame. -/
def completeCallResult (value : Value) : Caller → State W → Bool → Next W
  | .iterator set target caller depth tail', s, _ =>
    .resume (.iterator set target caller depth tail') (some value) s
  | .reaction promise _ finally_, s, _ =>
    .idle { s with world := env.completeReaction s.world promise finally_ value }
  | .objectAssign target caller depth tail', s, _ =>
    .resume (.objectAssign target caller depth tail') (some value) s
  | .thenGetter promise continuation _, s, _ =>
    continueAfterThenGetter continuation
      { s with world := env.completeThenGetter s.world promise value }
  | .accessor get frame _, s, _ => .run (if get then frame.push value else frame) s
  | .constructor_ instance_ caller _, s, _ =>
    completeCallResult (if constructorObject value then value else instance_) caller s false
  | .promiseExecutor promise caller _ tail', s, _ =>
    completeCallResult (.promise promise) caller s tail'
  | .thenable _ _, s, _ => .idle s
  | .native caller tail', s, _ => .resume (.native caller tail') (some value) s
  | .frame frame, s, tail => if tail then .return_ value s else .run (frame.push value) s
  | .none, s, tail => if tail then .return_ value s else .crash .noField
  | .async _ _ _ _, s, tail => if tail then .return_ value s else .crash .noField

/-- `deliver/2`, for a boundary whose promise is settled or whose function has detached. -/
def deliver (promise : ℕ) (caller : Caller) (mode : AsyncMode) (s : State W) : Next W :=
  match mode, caller with
  | .push, caller => completeCallResult env (.promise promise) caller s false
  | .return_, _ => .return_ (.promise promise) s
  | .reaction, .reaction promise' depth finally_ =>
    completeCallResult env (.promise promise) (.reaction promise' depth finally_) s false
  | .executor, .promiseExecutor promise' caller' _ tail =>
    completeCallResult env (.promise promise') caller' s tail
  | .thenable, _ => .idle s
  | .detached, _ => .idle s
  | _, _ => .crash .noField

def depthAfter (depth : ℕ) : Caller → ℕ
  | .none => depth - 1
  | .frame _ => depth - 1
  | .native _ _ => depth - 1
  | .accessor _ _ depth => depth
  | .constructor_ _ _ depth => depth
  | .objectAssign _ _ depth _ => depth
  | .iterator _ _ _ depth _ => depth
  | .promiseExecutor _ _ depth _ => depth
  | .thenable _ depth => depth
  | .thenGetter _ _ depth => depth
  | .reaction _ depth _ => depth
  | .async _ _ depth _ => depth

def returnValue (value : Value) (s : State W) : Next W :=
  match s.callers with
  | [] => .ok value { s with depth := 0 }
  | .none :: _ => .crash .noClause
  | .async promise caller depth mode :: callers =>
    deliver env promise caller mode
      { s with callers, depth, world := env.settle s.world promise (.ok value) }
  | caller :: callers =>
    completeCallResult env value caller { s with callers, depth := depthAfter s.depth caller } false

/-- The end of the native code of a boundary: `finish_native/3`, `continue_object_assign/2`
without keys and sources, `Iterator.finish/2` and `initialize_set`. -/
def finish (value : Value) (boundary : Caller) (s : State W) : Next W :=
  match boundary with
  | .native caller tail =>
    if tail then .return_ value s
    else
      match caller with
      | .frame frame => .run (frame.push value) s
      | _ => .crash .noField
  | .objectAssign target caller _ tail => completeCallResult env target caller s tail
  | .iterator false promise caller _ tail =>
    completeCallResult env (.promise promise) caller
      { s with world := env.aggregateInto s.world promise } tail
  | .iterator true target caller _ tail => completeCallResult env (.reference target) caller s tail
  | _ => .crash .noClause

/-! ### Throws -/

def stackFrame (frame : Frame) (caller : Bool) : TraceFrame where
  function := frame.function.id
  pc := min (if caller then frame.pc - 1 else frame.pc) (frame.function.instructions.length - 1)

def splitAtCatch : List Value → Option (ℕ × List Value)
  | [] => none
  | .catchMarker target :: stack => some (target, stack)
  | _ :: stack => splitAtCatch stack

def doThrow (unwind : List TraceFrame → Next W) (reason : Value) (caller : Caller) (s : State W)
    (trace : List TraceFrame) (isCaller : Bool) : Next W :=
  match caller with
  | .frame frame =>
    match splitAtCatch frame.stack with
    | some (target, stack) => .run { frame with pc := target, stack := reason :: stack } s
    | none => unwind (stackFrame frame isCaller :: trace)
  | _ => .crash .noField

def throwFromBoundary (unwind : List TraceFrame → Next W) (reason : Value) (boundary : Caller)
    (s : State W) (trace : List TraceFrame) : Next W :=
  match boundary with
  | .objectAssign _ caller _ _ => doThrow unwind reason caller s trace true
  | .thenGetter promise continuation _ =>
    continueAfterThenGetter continuation
      { s with world := env.settleAssimilated s.world promise (.error (env.thrown reason trace)) }
  | .accessor _ frame _ => doThrow unwind reason (.frame frame) s trace true
  | .constructor_ _ caller _ => doThrow unwind reason caller s trace true
  | .thenable promise _ =>
    .idle
      { s with world := env.settleAssimilated s.world promise (.error (env.thrown reason trace)) }
  | .promiseExecutor promise caller _ tail =>
    completeCallResult env (.promise promise) caller
      { s with world := env.settle s.world promise (.error (env.thrown reason trace)) } tail
  | .iterator false promise caller _ tail =>
    let (reason, world) := env.materialize s.world (env.thrown reason trace)
    completeCallResult env (.promise promise) caller
      { s with world := env.settle world promise (.error reason) } tail
  | .iterator true _ (.constructor_ _ caller _) _ _ => doThrow unwind reason caller s trace true
  | .reaction promise _ _ =>
    .idle { s with world := env.settle s.world promise (.error (env.thrown reason trace)) }
  | .native caller _ => doThrow unwind reason caller s trace true
  | .frame frame => doThrow unwind reason (.frame frame) s trace true
  | _ => .crash .noClause

def unwindCaller (reason : Value) : List Caller → State W → List TraceFrame → Next W
  | [], s, trace =>
    .uncaught (env.toJsError s.world reason trace.reverse) { s with callers := [] }
  | .none :: _, _, _ => .crash .noClause
  | .async promise caller depth mode :: callers, s, trace =>
    deliver env promise caller mode
      { s with callers, depth
               world := env.settle s.world promise (.error (env.thrown reason trace)) }
  | caller :: callers, s, trace =>
    let s := { s with callers, depth := depthAfter s.depth caller }
    throwFromBoundary env (unwindCaller reason callers s) reason caller s trace

def throwAt (reason : Value) (frame : Frame) (s : State W) : Next W :=
  let (reason, trace, world) := env.throwState s.world reason
  let s := { s with world }
  doThrow (unwindCaller env reason s.callers s) reason (.frame frame) s trace false

def throwFrom (reason : Value) (boundary : Caller) (s : State W) : Next W :=
  let (reason, trace, world) := env.throwState s.world reason
  let s := { s with world }
  throwFromBoundary env (unwindCaller env reason s.callers s) reason boundary s trace

def reject (reason : Value) (boundary : Caller) (s : State W) : Next W :=
  match boundary with
  | .iterator false promise caller _ tail =>
    let (reason, world) := env.materialize s.world reason
    completeCallResult env (.promise promise) caller
      { s with world := env.settle world promise (.error reason) } tail
  | .iterator true _ caller _ _ => .throwFrom reason caller s
  | boundary => .throwFrom reason boundary s

/-! ### Detached coroutines -/

/-- The callers above the nearest async boundary, the boundary and the callers below. -/
def splitAtAsync : List Caller →
    Option (List Caller × (ℕ × Caller × ℕ × AsyncMode) × List Caller)
  | [] => none
  | .async promise caller depth mode :: callers => some ([], (promise, caller, depth, mode), callers)
  | caller :: callers =>
    (splitAtAsync callers).map fun (inner, boundary, outer) => (caller :: inner, boundary, outer)

/-- `detach/3`, or the suspension of top-level code. -/
def detach (frame : Frame) (s : State W) : Next W :=
  match splitAtAsync s.callers with
  | some (inner, (promise, caller, depth, mode), outer) =>
    deliver env promise caller mode
      { s with callers := outer, depth, coroutines := s.coroutines ++ [⟨frame, inner, promise⟩] }
  | none => .suspended frame s

def isFrame : Caller → Bool
  | .frame _ => true
  | _ => false

def resumeCoroutine (coroutine : Coroutine) (result : Except Value Value) (s : State W) : Next W :=
  let s :=
    { s with
      callers := coroutine.callers ++ [.async coroutine.promise .none 0 .detached]
      depth := 0 + coroutine.callers.countP isFrame + 1 }
  match result with
  | .ok value => .run (coroutine.frame.push value) s
  | .error reason => .throwFrom reason (.frame coroutine.frame) s

end Functions

/-! ### Steps -/

inductive Event (W : Type) where
  /-- A frame executes an instruction: it goes on, or leaves `stack` and does something else. -/
  | proceeds (frame : Frame) (execution : State W)
  | invokes (stack : List Value) (tail : Bool)
  | constructs (stack : List Value) (instance_ : Value)
  | accesses (stack : List Value) (get : Bool)
  | returns (value : Value)
  | throws (stack : List Value) (reason : Value)
  | awaits (stack : List Value) (world : W)
  | stops
  /-- A queued read of a `then`, before a frame, an iterator or the event loop goes on. -/
  | readsThen (promise : ℕ) (world : W)
  /-- The callable of an invocation: a function, a builtin, or native code with a boundary. -/
  | enters (function : Function) (callable : Value) (closureRefs : List SlotRef)
      (arguments : List Value) (this : Value)
  | completes (value : Value) (world : W)
  | raises (reason : Value) (world : W)
  | startsArray
  | startsAssign (target : Value)
  | startsIterator (set : Bool) (target : ℕ) (world : W)
  | startsExecutor (promise : ℕ) (world : W)
  /-- Native code calls JavaScript, finishes or rejects. -/
  | calls (world : W)
  | finishes (value : Value) (world : W)
  | rejects (reason : Value) (world : W)
  | goes
  /-- The driver: the jobs of the loop, suspended code, a call of a global. -/
  | resumesCoroutine (index : ℕ) (result : Except Value Value) (world : W)
  | runsReaction (promise : ℕ) (finally_ : Bool) (world : W)
  | runsThenable (promise : ℕ) (world : W)
  | runsJob (world : W)
  | continues (result : Except Value Value) (world : W)
  | callsGlobal (root : Function) (world : W)

section Steps

variable {W : Type} (env : Env W)

def isConstructor : Caller → Bool
  | .constructor_ _ _ _ => true
  | _ => false

def stepRun (frame : Frame) (s : State W) : Event W → Option (Next W)
  | .proceeds frame' execution =>
    some (.run { frame' with function := frame.function }
      { execution with
        callers := s.callers, depth := s.depth, maxStackDepth := s.maxStackDepth
        coroutines := s.coroutines })
  | .invokes stack tail => some (.dispatch (.frame { frame with stack }.next) s tail)
  | .constructs stack instance_ =>
    some (.dispatch (.constructor_ instance_ (.frame { frame with stack }.next) s.depth) s false)
  | .accesses stack get =>
    some (.dispatch (.accessor get { frame with stack }.next s.depth) s false)
  | .returns value => some (returnValue env value s)
  | .throws stack reason => some (throwAt env reason { frame with stack } s)
  | .awaits stack world =>
    if frame.function.funcKind = 2 then
      some (detach env { frame with stack }.next { s with world })
    else none
  | .readsThen promise world =>
    some (.dispatch (.thenGetter promise (.frame frame) s.depth) { s with world } false)
  | .stops => some (.stopped s)
  | _ => none

def stepDispatch (caller : Caller) (s : State W) (tail : Bool) : Event W → Option (Next W)
  | .enters function callable closureRefs arguments this =>
    some (enterPlannedCall env function callable closureRefs arguments this caller s tail)
  | .completes value world => some (completeCallResult env value caller { s with world } tail)
  | .raises reason world => some (.throwFrom reason caller { s with world })
  | .startsArray => some (.resume (.native caller tail) none s)
  | .startsAssign target => some (.resume (.objectAssign target caller s.depth tail) none s)
  | .startsIterator set target world =>
    if set && !isConstructor caller then none
    else some (.resume (.iterator set target caller s.depth tail) none { s with world })
  | .startsExecutor promise world =>
    if isConstructor caller then
      some (.dispatch (.promiseExecutor promise caller s.depth false) { s with world } false)
    else none
  | .stops => some (.stopped s)
  | _ => none

def isIterator : Caller → Bool
  | .iterator _ _ _ _ _ => true
  | _ => false

def isNative : Caller → Bool
  | .native _ _ => true
  | _ => false

def isAssign : Caller → Bool
  | .objectAssign _ _ _ _ => true
  | _ => false

def stepResume (boundary : Caller) (s : State W) : Event W → Option (Next W)
  | .calls world => some (.dispatch boundary { s with world } false)
  | .finishes value world => some (finish env value boundary { s with world })
  | .rejects reason world =>
    if isNative boundary then none else some (reject env reason boundary { s with world })
  | .readsThen promise world =>
    if isIterator boundary then
      some (.dispatch (.thenGetter promise boundary s.depth) { s with world } false)
    else none
  | _ => none

def stepDriver (s : State W) : Event W → Option (Next W)
  | .resumesCoroutine index result world =>
    s.coroutines[index]?.map fun coroutine =>
      resumeCoroutine coroutine result
        { s with world, coroutines := s.coroutines.eraseIdx index }
  | .runsReaction promise finally_ world =>
    some (.dispatch (.reaction promise s.depth finally_) { s with world } false)
  | .runsThenable promise world =>
    some (.dispatch (.thenable promise s.depth) { s with world } false)
  | .readsThen promise world =>
    some (.dispatch (.thenGetter promise .none s.depth) { s with world } false)
  | .runsJob world => some (.idle { s with world })
  | .callsGlobal root world =>
    some (.dispatch (.frame (newFrame root (.function root) [] .undefined [])) { s with world } true)
  | _ => none

def advance (next : Next W) (e : Event W) : Option (Next W) :=
  match next with
  | .run frame s => stepRun env frame s e
  | .dispatch caller s tail => stepDispatch env caller s tail e
  | .resume boundary _ s => stepResume env boundary s e
  | .return_ value s =>
    match e with
    | .goes => some (returnValue env value s)
    | _ => none
  | .throwFrom reason caller s =>
    match e with
    | .goes => some (throwFrom env reason caller s)
    | _ => none
  | .suspended frame s =>
    match e with
    | .continues (.ok value) world => some (.run (frame.push value) { s with world })
    | .continues (.error reason) world => some (.throwFrom reason (.frame frame) { s with world })
    | _ => none
  | .ok _ s => stepDriver s e
  | .idle s => stepDriver s e
  | _ => none

/-- An evaluation; `entry` is the depth at which its current activity was entered. -/
structure Config (W : Type) where
  next : Next W
  entry : ℕ

def atRest : Next W → Bool
  | .ok _ _ => true
  | .idle _ => true
  | _ => false

def step (c : Config W) (e : Event W) : Option (Config W) :=
  (advance env c.next e).map fun next => ⟨next, if atRest c.next then 0 else c.entry⟩

/-- `start/2`: the frame of the program runs at depth 1. -/
def initial (root : Function) (s : State W) : Config W where
  next := .run (newFrame root (.function root) [] .undefined [])
    { s with callers := [], depth := 1, coroutines := [] }
  entry := 1

def machine : Machine (Config W) (Event W) where
  init c := ∃ root s, 1 ≤ s.maxStackDepth ∧ c = initial root s
  step c e := step env c e

end Steps

end QuickBeam.Vm.Runtime.Calls
