import QuickBeam.Lib.Assoc
import QuickBeam.Vm.Runtime.Value

/-!
# Frames and execution state (`runtime/frame.ex`, `runtime/state.ex`, `runtime/boundary/*.ex`)

A frame is one activation of a bytecode function.  The callers of a frame are frames and the
boundaries of native code that waits for a JavaScript call.  Objects, promises, jobs and the
other tables of the execution state are the `world`: instructions read and change it only
through the answers of the environment.
-/

namespace QuickBeam.Vm.Runtime

open QuickBeam.Lib QuickBeam.Vm.Bytecode QuickBeam.Vm.Program

/-! ### Frames -/

structure Frame where
  function : Function
  callable : Value
  closureRefs : List SlotRef
  locals : List Value
  args : List Value
  actualArgCount : ℕ
  this : Value
  compilerAllowReentry : Bool
  compilerEntered : Bool
  compilerReentryAfterInstruction : Bool
  pc : ℕ
  stack : List Value

def newFrame (function : Function) (callable : Value) (arguments : List Value) (this : Value)
    (closureRefs : List SlotRef) : Frame where
  function := function
  callable := callable
  closureRefs := closureRefs
  locals := List.replicate (max (function.argCount + function.varCount) 1) .undefined
  args := arguments ++ List.replicate (function.argCount - arguments.length) .undefined
  actualArgCount := arguments.length
  this := this
  compilerAllowReentry := false
  compilerEntered := false
  compilerReentryAfterInstruction := false
  pc := 0
  stack := []

def Frame.push (frame : Frame) (value : Value) : Frame :=
  { frame with stack := value :: frame.stack }

def Frame.next (frame : Frame) : Frame := { frame with pc := frame.pc + 1 }

/-! ### Callers -/

/-- How the promise of an async function is delivered. -/
inductive AsyncMode where
  | push | return_ | reaction | executor | thenable | detached
deriving DecidableEq

/-- What waits for a call to complete: a frame, or a boundary of native code.  `none` is `nil`,
the caller of an async tail call and the continuation of a `then` getter read by a job. -/
inductive Caller where
  | none
  | frame (frame : Frame)
  | native (caller : Caller) (tail : Bool)
  | accessor (get : Bool) (caller : Frame) (depth : ℕ)
  | constructor_ (instance_ : Value) (caller : Caller) (depth : ℕ)
  | objectAssign (target : Value) (caller : Caller) (depth : ℕ) (tail : Bool)
  | iterator (set : Bool) (promise : ℕ) (caller : Caller) (depth : ℕ) (tail : Bool)
  | promiseExecutor (promise : ℕ) (caller : Caller) (depth : ℕ) (tail : Bool)
  | thenable (promise depth : ℕ)
  | thenGetter (promise : ℕ) (continuation : Caller) (depth : ℕ)
  | reaction (promise depth : ℕ) (finally_ : Bool)
  | async (promise : ℕ) (caller : Caller) (depth : ℕ) (mode : AsyncMode)

/-- `%Coroutine{}`: a detached async frame, its callers and the promise of its boundary. -/
structure Coroutine where
  frame : Frame
  callers : List Caller
  promise : ℕ

/-! ### State -/

/-- `%State{}`; `coroutines` are the coroutines that wait for a settlement or in the job queue,
`world` stands for the fields that only the heap, the promises and the jobs use. -/
structure State (W : Type) where
  atoms : List Binary
  callers : List Caller
  cells : Assoc ℕ Value
  nextCellId : ℕ
  globals : Assoc Binary Value
  coroutines : List Coroutine
  depth : ℕ
  maxStackDepth : ℕ
  remainingSteps : ℕ
  stepLimit : ℕ
  memoryExceeded : Bool
  syncJobsPending : Bool
  world : W

/-! ### Instructions -/

/-- What an instruction asks the heap, the builtins or the iterators for. -/
inductive Answer where
  | value (v : Value)
  | values (vs : List Value)
  | accessor (getter receiver : Value)
  | setter (setter : Value)
  | construct (constructor_ instance_ : Value)
  | error (reason : Value)

structure Reply (W : Type) where
  answer : Answer
  world : W
  memoryExceeded : Bool

/-- How an instruction raises in the host: an index outside a tuple, a cell that is not there, a
stack without the entries of the instruction, no clause for its arguments, or a failed arithmetic
operation. -/
inductive Crash where
  | badIndex
  | noCell
  | underflow
  | noClause
  | arithmetic
deriving DecidableEq

/-- What an instruction asks the interpreter to do. -/
inductive Action (W : Type) where
  | next (frame : Frame) (execution : State W)
  | run (frame : Frame) (execution : State W)
  | return_ (value : Value) (execution : State W)
  | returnAsync (value : Value) (execution : State W)
  | throw_ (reason : Value) (frame : Frame) (execution : State W)
  | invoke (callable : Value) (arguments : List Value) (this : Value) (caller : Frame)
      (execution : State W) (tail : Bool)
  | invokeConstructor (callable : Value) (arguments : List Value) (instance_ : Value)
      (caller : Frame) (execution : State W)
  | invokeGetter (getter receiver : Value) (frame : Frame) (execution : State W)
  | invokeSetter (setter value object : Value) (frame : Frame) (execution : State W)
  | awaitPromise (promise : ℕ) (frame : Frame) (execution : State W)
  | awaitLegacy (reference : ℕ) (frame : Frame) (execution : State W)
  | awaitImmediate (result : Except Value Value) (frame : Frame) (execution : State W)
  | error (reason : String) (execution : State W)

def elem (tuple : List Value) (index : ℤ) : Except Crash Value :=
  if 0 ≤ index then
    match tuple[index.toNat]? with
    | some value => .ok value
    | none => .error .badIndex
  else .error .badIndex

def putElem (tuple : List Value) (index : ℤ) (value : Value) : List Value :=
  tuple.set index.toNat value

def enumAt (list : List Value) (index : ℤ) : Value :=
  if 0 ≤ index then list.getD index.toNat .null
  else if 0 ≤ index + list.length then list.getD (index + list.length).toNat .null
  else .null

def labelTarget : Operand → ℕ
  | .int target => target.toNat
  | _ => 0

end QuickBeam.Vm.Runtime
