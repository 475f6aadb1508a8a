import QuickBeam.Vm.Program.Function
import QuickBeam.Vm.Runtime.PromiseAggregate

/-!
# The event loop and the host calls (`runtime.ex`, `runtime/async.ex`)

An evaluation runs JavaScript, is suspended by an `await` of top-level code, or drives its job
queue until its final promise settles.  Calls of host handlers run in tasks of their own, which
send their replies to the mailbox of the evaluation.

JavaScript is not modelled: while it runs it may do any promise operation, except that it holds
no resolver of the promise of a host call.  No operation reads the fields `accepted`, `sent`,
`taken`, `suspensions` and `resumptions`, nor what a phase says is awaited.
-/

set_option linter.unusedSectionVars false

namespace QuickBeam.Vm.Runtime.EventLoop

open QuickBeam.Lib QuickBeam.Vm.Program
open QuickBeam.Vm.Runtime.Promise (Value Plain Resolution Result Job Env)

/-! ### State -/

/-- A reference of `make_ref/0`: of a host operation of this evaluation, or any other. -/
inductive Ref where
  | own (n : ℕ)
  | foreign (n : ℕ)
deriving DecidableEq

/-- An entry `{promise, pid}` of the pending operations. -/
structure Operation where
  promise : ℕ
  pid : ℕ
deriving DecidableEq

/-- `{:quickbeam_vm_host_reply, operation, result}`. -/
structure Message (ν : Type) where
  operation : Ref
  result : Resolution ν

/-- What top-level code waits for. -/
inductive Awaited (ν : Type) where
  | value (result : Resolution ν)
  | promise (id : ℕ)

inductive Phase (ν : Type) where
  /-- JavaScript runs, as a job of the loop for `final` or as top-level code. -/
  | running (final : Option ℕ)
  /-- Top-level code is suspended until its microtask. -/
  | microtask (awaited : Awaited ν)
  /-- Top-level code is suspended on a promise: `await_legacy_promise/2` is called, and waits. -/
  | legacy (promise : ℕ)
  | waiting (promise : ℕ)
  /-- The loop drives its jobs for the final promise, or waits in `receive_host_reply/3`. -/
  | final (promise : ℕ)
  | receiving (promise : ℕ)
  | finished
  | crashed

structure State (ν η : Type) where
  execution : Promise.State ν η
  operations : Assoc ℕ Operation
  tasks : Assoc ℕ ℕ
  mailbox : List (Message ν)
  phase : Phase ν
  nextOperation : ℕ
  nextPid : ℕ
  accepted : List (ℕ × ℕ)
  sent : List (ℕ × Resolution ν)
  taken : List (ℕ × Resolution ν)
  suspensions : ℕ
  resumptions : List (Awaited ν × Resolution ν)

/-- The installed handlers and the terms of the errors. -/
structure Host (ν : Type) where
  handlers : List Binary
  unknownHandler : Binary → ν
  handlerStartFailed : ν → ν

def maxHostOperations : ℕ := 64

section Operations

variable {ν η : Type} (env : Env ν η) (host : Host ν)

/-! ### Host calls -/

/-- `start_handler_task/4`, for the promise of the call; `start` is the answer of the task
supervisor. -/
def startHandlerTask (s : State ν η) (promise : ℕ) (start : Except ν Unit) :
    Option (State ν η) :=
  match start with
  | .ok () =>
    some { s with
      operations := s.operations.put s.nextOperation ⟨promise, s.nextPid⟩
      tasks := s.tasks.put s.nextPid s.nextOperation
      nextOperation := s.nextOperation + 1
      nextPid := s.nextPid + 1
      accepted := s.accepted ++ [(s.nextOperation, promise)] }
  | .error reason =>
    (Promise.settle env s.execution promise
      (.error (.plain (.term (host.handlerStartFailed reason))))).map fun execution =>
        { s with execution, nextOperation := s.nextOperation + 1 }

/-- How a host call ends. -/
inductive Outcome where
  | ok (promise : ℕ)
  | limitExceeded
  | typeError
deriving DecidableEq

/-- `start_host_call/2`; `name` is the first argument if it is a string. -/
def startHostCall (s : State ν η) (name : Option Binary) (start : Except ν Unit) :
    Option (Outcome × State ν η) :=
  match name with
  | none => some (.typeError, s)
  | some name =>
    if s.operations.size < maxHostOperations then
      let promise := s.execution.nextPromise
      let s := { s with execution := (Promise.new s.execution).2 }
      if name ∈ host.handlers then
        (startHandlerTask env host s promise start).map fun s => (.ok promise, s)
      else
        (Promise.settle env s.execution promise
          (.error (.plain (.term (host.unknownHandler name))))).map fun execution =>
            (.ok promise, { s with execution })
    else some (.limitExceeded, s)

def settleHostReply (s : State ν η) (message : Message ν) : Option (Bool × State ν η) :=
  match message.operation with
  | .foreign _ => some (false, s)
  | .own n =>
    match s.operations.get? n with
    | none => some (false, s)
    | some operation =>
      (Promise.settle env s.execution operation.promise message.result).map fun execution =>
        (true, { s with
          execution
          operations := s.operations.delete n
          taken := s.taken ++ [(n, message.result)] })

/-- `cancel_operations/1`: the tasks of the pending operations are killed. -/
def cancelOperations (s : State ν η) : State ν η :=
  { s with tasks := s.tasks.filterKeys fun pid =>
      !(s.operations.toList.any fun entry => entry.2.pid = pid) }

def finish (s : State ν η) : State ν η := { cancelOperations s with phase := .finished }

/-! ### Suspended top-level code -/

def suspendMicrotask (s : State ν η) (awaited : Awaited ν) (result : Resolution ν) : State ν η :=
  { s with
    execution := s.execution.enqueue none (.microtask result)
    phase := .microtask awaited
    suspensions := s.suspensions + 1 }

/-- `suspend_promise/3`; `none` when the promise does not exist. -/
def suspendPromise (s : State ν η) (promise : ℕ) : Option (State ν η) :=
  (s.execution.promises.get? promise).map fun state =>
    match state.result? with
    | none => { s with phase := .legacy promise, suspensions := s.suspensions + 1 }
    | some result => suspendMicrotask s (.promise promise) result.resolution

/-- `then_resume/3`: the rest of the queue is kept. -/
def thenResume (s : State ν η) (awaited : Awaited ν) (result : Resolution ν)
    (jobs : List (Job ν)) : State ν η :=
  { s with
    execution := { s.execution with jobs }
    phase := .running none
    resumptions := s.resumptions ++ [(awaited, result)] }

/-- `drive_with/2` of a continuation that waits for its microtask: any other job at the head of
the queue matches no clause. -/
def driveMicrotask (s : State ν η) (awaited : Awaited ν) : State ν η :=
  match s.execution.jobs with
  | [] => finish s
  | .microtask result :: jobs => thenResume s awaited result jobs
  | _ :: _ => { s with phase := .crashed }

/-- The clauses of `await_legacy_promise/2`, once a message has arrived. -/
def receiveLegacy (s : State ν η) (promise : ℕ) (message : Message ν) : Option (State ν η) :=
  (settleHostReply env s message).bind fun (ok, s) =>
    if ok then
      (s.execution.promises.get? promise).map fun state =>
        match state.result? with
        | none => { s with phase := .legacy promise }
        | some result =>
          { s with
            execution := s.execution.enqueue none (.microtask result.resolution)
            phase := .microtask (.promise promise) }
    else some s

/-! ### The loop -/

/-- The phase after `run_job`: JavaScript runs, or the loop goes on. -/
def phaseAfter (s : State ν η) (promise : ℕ) : Job ν → Phase ν
  | .resumeCoroutine _ _ => .running (some promise)
  | .assimilateThenable _ _ _ => .running (some promise)
  | .runReaction reaction result =>
    if env.callable s.execution.heap (reaction.callback result) then .running (some promise)
    else .final promise
  | .settleAssimilated _ _ => .final promise
  | .settlePromise _ _ => .final promise
  | .aggregateSettle _ _ _ => .final promise
  | .microtask _ => .crashed

/-- `drive_event_loop/3`: `run_job` has no clause for the result of a microtask. -/
def driveEventLoop (s : State ν η) (promise : ℕ) : Option (State ν η) :=
  match s.execution.jobs with
  | [] =>
    if 0 < s.operations.size then some { s with phase := .receiving promise }
    else some (finish s)
  | .microtask _ :: _ => some { s with phase := .crashed }
  | job :: _ =>
    (Promise.step env s.execution .runJob).map fun execution =>
      { s with execution, phase := phaseAfter env s promise job }

def awaitFinalPromise (s : State ν η) (promise : ℕ) : Option (State ν η) :=
  if s.execution.syncJobs.isEmpty then
    (s.execution.promises.get? promise).bind fun state =>
      match state.result? with
      | some _ => some (finish s)
      | none => driveEventLoop env s promise
  else
    (Promise.step env s.execution .readThenable).map fun execution =>
      { s with execution, phase := .running (some promise) }

def receiveHostReply (s : State ν η) (promise : ℕ) (message : Message ν) :
    Option (State ν η) :=
  (settleHostReply env s message).map fun (ok, s) =>
    if ok then { s with phase := .final promise } else s

/-! ### Steps -/

inductive Event (ν η : Type) where
  /-- JavaScript runs: a promise operation, a host call, an `await` of top-level code, its end. -/
  | script (event : Promise.Event ν η)
  | hostCall (name : Option Binary) (start : Except ν Unit)
  | awaitPromise (promise : ℕ)
  | awaitValue (result : Resolution ν)
  | ends (value : Value ν)
  | fails
  /-- The driver takes its next step, or receives a message. -/
  | drive
  | receive
  /-- A task replies or dies; a reply arrives once more; any other reply arrives. -/
  | replies (pid : ℕ) (result : Resolution ν)
  | dies (pid : ℕ)
  | duplicates (index : ℕ)
  | strays (n : ℕ) (result : Resolution ν)

def resolved? : Promise.Event ν η → Option ℕ
  | .settle q _ => some q
  | .aggregateInto q _ _ => some q
  | _ => none

/-- JavaScript can do the operation: it is none of the driver, and JavaScript holds a resolver. -/
def mayDo (s : State ν η) (event : Promise.Event ν η) : Bool :=
  match event with
  | .runJob => false
  | .suspendMicrotask _ => false
  | event =>
    match resolved? event with
    | none => true
    | some q => decide (q < s.execution.nextPromise) && s.accepted.all fun entry => entry.2 ≠ q

def runScript (s : State ν η) (final : Option ℕ) : Event ν η → Option (State ν η)
  | .script event =>
    if mayDo s event then
      (Promise.step env s.execution event).map fun execution => { s with execution }
    else none
  | .hostCall name start =>
    (startHostCall env host s name start).map fun (outcome, s) =>
      if outcome = .limitExceeded then finish s else s
  | .awaitPromise promise => suspendPromise s promise
  | .awaitValue result => some (suspendMicrotask s (.value result) result)
  | .ends value =>
    match final, value with
    | some promise, _ => some { s with phase := .final promise }
    | none, .promise promise => some { s with phase := .final promise }
    | none, .plain _ => some (finish s)
  | .fails => some (finish s)
  | _ => none

def driveStep (s : State ν η) : Option (State ν η) :=
  match s.phase with
  | .microtask awaited => some (driveMicrotask s awaited)
  | .legacy promise => some { s with phase := .waiting promise }
  | .final promise => awaitFinalPromise env s promise
  | _ => none

def receiveStep (s : State ν η) : Option (State ν η) :=
  match s.mailbox with
  | [] => none
  | message :: mailbox =>
    match s.phase with
    | .waiting promise => receiveLegacy env { s with mailbox } promise message
    | .receiving promise => receiveHostReply env { s with mailbox } promise message
    | _ => none

/-- A task of a host call replies (`coordinate_handler/4`) and ends. -/
def taskReplies (s : State ν η) (pid : ℕ) (result : Resolution ν) : Option (State ν η) :=
  (s.tasks.get? pid).map fun operation =>
    { s with
      tasks := s.tasks.delete pid
      mailbox := s.mailbox ++ [⟨.own operation, result⟩]
      sent := s.sent ++ [(operation, result)] }

/-- One step; `none` when it cannot happen. -/
def step (s : State ν η) : Event ν η → Option (State ν η)
  | .drive => driveStep env s
  | .receive => receiveStep env s
  | .replies pid result => taskReplies s pid result
  | .dies pid => some { s with tasks := s.tasks.delete pid }
  | .duplicates index =>
    s.sent[index]?.map fun entry =>
      { s with mailbox := s.mailbox ++ [⟨.own entry.1, entry.2⟩] }
  | .strays n result => some { s with mailbox := s.mailbox ++ [⟨.foreign n, result⟩] }
  | event =>
    match s.phase with
    | .running final => runScript env host s final event
    | _ => none

/-- Top-level code starts. -/
def initial (heap : η) : State ν η :=
  { execution := Promise.initial heap, operations := ∅, tasks := ∅, mailbox := []
    phase := .running none, nextOperation := 0, nextPid := 0, accepted := [], sent := []
    taken := [], suspensions := 0, resumptions := [] }

def machine : Machine (State ν η) (Event ν η) where
  init s := ∃ heap, s = initial heap
  step s e := step env host s e

end Operations

end QuickBeam.Vm.Runtime.EventLoop
