import QuickBeam.Lib.Transition

/-!
# The thread of a context pool (`context_types.zig`, `context_worker.zig`)

All contexts of a pool thread share one queue.  The main loop takes a message at a time.  An
evaluation, a load of bytecode or a call installs the pump (`pool_drain_callback`), which takes
further messages while the program waits for a promise or a synchronous host call: some it handles,
the others it puts back at the end of the queue.

A message is its variant, its context and a payload of any type; a `stop` has no use for its
context.  `held` is the message that the pump has taken and not yet put back.  `enqueued`, `started`
and `missed` are records: a message is missed when its context is not there.
-/

namespace QuickBeam.Native

open QuickBeam.Lib

variable {α : Type}

/-! ### Messages -/

abbrev ContextId := ℕ

inductive PoolVariant where
  | createContext
  | destroyContext
  | ctxEval
  | ctxLoadBytecode
  | ctxCallFn
  | ctxReset
  | ctxSendMessage
  | ctxDefineGlobal
  | ctxGetGlobal
  | ctxMemoryUsage
  | ctxDomOp
  | ctxResolveCall
  | ctxRejectCall
  | ctxResolveCallTerm
  | stop
deriving DecidableEq

/-- The prongs of the switch in `pool_drain_callback` that handle the message. -/
def PoolVariant.drained : PoolVariant → Bool
  | .ctxResolveCall | .ctxRejectCall | .ctxResolveCallTerm | .ctxSendMessage | .ctxDefineGlobal
  | .ctxGetGlobal => true
  | _ => false

/-- The handler calls `install_pump`. -/
def PoolVariant.pumps : PoolVariant → Bool
  | .ctxEval | .ctxLoadBytecode | .ctxCallFn => true
  | _ => false

structure PoolMessage (α : Type) where
  variant : PoolVariant
  context : ContextId
  payload : α
deriving DecidableEq

structure ContextPool (α : Type) where
  queue : List (PoolMessage α)
  /-- The keys of `contexts`. -/
  contexts : List ContextId
  /-- A handler with the pump is in progress. -/
  pumping : Bool
  held : Option (PoolMessage α)
  stopped : Bool
  enqueued : List (PoolMessage α)
  started : List (PoolMessage α)
  missed : List (PoolMessage α)

namespace ContextPool

def initial : ContextPool α := ⟨[], [], false, none, false, [], [], []⟩

/-! ### Steps -/

def enqueue (s : ContextPool α) (message : PoolMessage α) : ContextPool α :=
  { s with queue := s.queue ++ [message], enqueued := s.enqueued ++ [message] }

/-- The handler of a message, up to where it runs JavaScript. -/
def handle (s : ContextPool α) (message : PoolMessage α) : ContextPool α :=
  let started := s.started ++ [message]
  match message.variant with
  | .createContext => { s with started, contexts := message.context :: s.contexts }
  | .destroyContext => { s with started, contexts := s.contexts.filter (· ≠ message.context) }
  | .stop => { s with started, stopped := true }
  | _ =>
    if message.context ∈ s.contexts then { s with started }
    else { s with started, missed := s.missed ++ [message] }

/-- The main loop takes a message. -/
def dequeue (s : ContextPool α) : Option (ContextPool α) :=
  match s.queue, s.pumping, s.held, s.stopped with
  | message :: queue, false, none, false =>
    let pumping := message.variant.pumps && decide (message.context ∈ s.contexts)
    some { { s with queue }.handle message with pumping }
  | _, _, _, _ => none

def drain (s : ContextPool α) : Option (ContextPool α) :=
  match s.queue, s.pumping, s.held with
  | message :: queue, true, none =>
    if message.variant.drained then some ({ s with queue }.handle message)
    else some { s with queue, held := some message }
  | _, _, _ => none

/-- `pool_enqueue` by the pump. -/
def putBack (s : ContextPool α) : Option (ContextPool α) :=
  match s.held with
  | some message => some { s with queue := s.queue ++ [message], held := none }
  | none => none

def finish (s : ContextPool α) : Option (ContextPool α) :=
  match s.pumping, s.held with
  | true, none => some { s with pumping := false }
  | _, _ => none

inductive Event (α : Type) where
  | enqueue (message : PoolMessage α)
  | dequeue
  | drain
  | putBack
  | finish

def step (s : ContextPool α) : Event α → Option (ContextPool α)
  | .enqueue message => some (s.enqueue message)
  | .dequeue => s.dequeue
  | .drain => s.drain
  | .putBack => s.putBack
  | .finish => s.finish

def machine : Machine (ContextPool α) (Event α) where
  init s := s = initial
  step := step

end ContextPool

end QuickBeam.Native
