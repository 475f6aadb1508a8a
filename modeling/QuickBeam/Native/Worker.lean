import QuickBeam.Lib.GenServer
import QuickBeam.Lib.Transition

/-!
# The worker of a runtime (`types.zig`, `worker.zig`, `server.ex`)

Clients put messages into the queue of a runtime.  Two loops take them: the main loop, and the wait
of `await_promise` inside an evaluation, a call or a module load.  A host import calls JavaScript in the
middle of whatever runs, so a wait may be inside any handler, and inside the timers and jobs that each
loop runs between messages.  A wait handles some messages itself, which may start a wait of their own,
and drops the others (`Variant.handledInWait`).

A message is its variant and a reference: the reply reference of a request, or just a number.  The
stack has what is in progress, innermost first.  `enqueued`, `finished`, `replies` and
`answered` are records; `mailbox` has the replies that the server has not seen yet.
-/

namespace QuickBeam.Native

open QuickBeam.Lib

/-! ### Messages -/

inductive Variant where
  | eval
  | compile
  | callFn
  | callFnSync
  | loadModule
  | loadBytecode
  | reset
  | resolveCall
  | rejectCall
  | resolveCallTerm
  | sendMessage
  | defineGlobal
  | getGlobal
  | deleteGlobals
  | snapshotGlobals
  | listGlobals
  | memoryUsage
  | domOp
  | loadAddon
  | napiAsyncComplete
  | napiTsfnCall
  | enableCoverage
  | getCoverage
  | resetCoverage
  | stop
deriving DecidableEq

/-- The payload has a `ref_term`, which `send_reply` answers. -/
def Variant.replies : Variant → Bool
  | .eval | .compile | .callFn | .loadModule | .loadBytecode | .reset | .getGlobal | .listGlobals
  | .memoryUsage | .domOp | .loadAddon | .enableCoverage | .getCoverage | .resetCoverage => true
  | _ => false

/-- The prongs of the switch in `await_promise` before `stop` and `else => {}`. -/
def Variant.handledInWait : Variant → Bool
  | .resolveCall | .rejectCall | .resolveCallTerm | .callFnSync | .sendMessage | .defineGlobal
  | .getGlobal | .deleteGlobals | .snapshotGlobals | .listGlobals | .napiAsyncComplete
  | .napiTsfnCall => true
  | _ => false

structure Message where
  variant : Variant
  ref : Ref
deriving DecidableEq

/-- A handler in progress with its message, or timers and jobs without one, and whether it is in
`await_promise`. -/
structure Frame where
  message : Option Message
  waiting : Bool
deriving DecidableEq

structure Runtime where
  queue : List Message
  stack : List Frame
  /-- The main loop has ended. -/
  stopped : Bool
  nextRef : Ref
  /-- The keys of the server's `pending`. -/
  pending : List Ref
  mailbox : List Ref
  enqueued : List Message
  finished : List Message
  replies : List Ref
  answered : List Ref

namespace Runtime

def initial : Runtime := ⟨[], [], false, 0, [], [], [], [], [], []⟩

/-! ### Steps -/

/-- `enqueue`, with the `put_pending` of the server when it is the client. -/
def enqueue (s : Runtime) (variant : Variant) (server : Bool) : Runtime :=
  let message := ⟨variant, s.nextRef⟩
  { s with
    queue := s.queue ++ [message]
    nextRef := s.nextRef + 1
    enqueued := s.enqueued ++ [message]
    pending := if server && variant.replies then s.nextRef :: s.pending else s.pending }

/-- The end of a handler, with its `send_reply`. -/
def finishMessage (s : Runtime) (message : Message) : Runtime :=
  if message.variant.replies then
    { s with
      finished := s.finished ++ [message]
      replies := s.replies ++ [message.ref]
      mailbox := s.mailbox ++ [message.ref] }
  else { s with finished := s.finished ++ [message] }

/-- The main loop takes a message. -/
def dequeue (s : Runtime) : Option Runtime :=
  match s.queue, s.stack, s.stopped with
  | message :: queue, [], false =>
    if message.variant = .stop then some ({ s with queue, stopped := true }.finishMessage message)
    else some { s with queue, stack := [⟨some message, false⟩] }
  | _, _, _ => none

/-- The main loop takes an `napi_tsfn_call` for a function whose queue is empty: the `break` there
ends the loop. -/
def breakLoop (s : Runtime) : Option Runtime :=
  match s.queue, s.stack, s.stopped with
  | message :: queue, [], false =>
    if message.variant = .napiTsfnCall then
      some ({ s with queue, stopped := true }.finishMessage message)
    else none
  | _, _, _ => none

/-- `fire_expired_timers` or `drain_jobs` after a turn of the main loop, or of the innermost wait. -/
def runTimers (s : Runtime) : Option Runtime :=
  match s.stack, s.stopped with
  | [], false => some { s with stack := [⟨none, false⟩] }
  | ⟨message, true⟩ :: stack, _ => some { s with stack := ⟨none, false⟩ :: ⟨message, true⟩ :: stack }
  | _, _ => none

/-- The innermost handler enters `await_promise`, itself or through a host import. -/
def await (s : Runtime) : Option Runtime :=
  match s.stack with
  | ⟨message, false⟩ :: stack => some { s with stack := ⟨message, true⟩ :: stack }
  | _ => none

def dequeueWait (s : Runtime) : Option Runtime :=
  match s.queue, s.stack with
  | message :: queue, ⟨outer, true⟩ :: stack =>
    if message.variant.handledInWait then
      some { s with queue, stack := ⟨some message, false⟩ :: s.stack }
    else if message.variant = .stop then
      some ({ s with queue, stack := ⟨outer, false⟩ :: stack }.finishMessage message)
    else some { s with queue }
  | _, _ => none

/-- The innermost wait ends: its promise is settled, or the time is over. -/
def settle (s : Runtime) : Option Runtime :=
  match s.stack with
  | ⟨message, true⟩ :: stack => some { s with stack := ⟨message, false⟩ :: stack }
  | _ => none

/-- The innermost handler ends. -/
def finish (s : Runtime) : Option Runtime :=
  match s.stack with
  | ⟨some message, false⟩ :: stack => some ({ s with stack }.finishMessage message)
  | ⟨none, false⟩ :: stack => some { s with stack }
  | _ => none

/-- `handle_pending_ref` for the first reply in the server's mailbox. -/
def deliver (s : Runtime) : Option Runtime :=
  match s.mailbox with
  | [] => none
  | ref :: mailbox =>
    if ref ∈ s.pending then
      some { s with
        mailbox
        pending := s.pending.filter (· ≠ ref)
        answered := s.answered ++ [ref] }
    else some { s with mailbox }

inductive Event where
  | enqueue (variant : Variant) (server : Bool)
  | dequeue
  | breakLoop
  | runTimers
  | await
  | dequeueWait
  | settle
  | finish
  | deliver
deriving DecidableEq

def step (s : Runtime) : Event → Option Runtime
  | .enqueue variant server => some (s.enqueue variant server)
  | .dequeue => s.dequeue
  | .breakLoop => s.breakLoop
  | .runTimers => s.runTimers
  | .await => s.await
  | .dequeueWait => s.dequeueWait
  | .settle => s.settle
  | .finish => s.finish
  | .deliver => s.deliver

def machine : Machine Runtime Event where
  init s := s = initial
  step := step

end Runtime

end QuickBeam.Native
