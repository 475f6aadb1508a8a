import QuickBeam.Lib.Assoc
import QuickBeam.Lib.Transition

/-!
# Promises (`runtime/promise.ex`)

The promise part of an execution: the promise records, their waiters, the job queues, and the
boundaries that running JavaScript holds (getters of `then`, thenables, reactions).  The
operations are those of `runtime/promise.ex`; `runJob` and the boundary completions are those of
`runtime/async.ex`, `runtime/exception.ex` and `runtime.ex`.

JavaScript itself is not modelled: it may call any operation on any promise at any time and
change the heap at will, so `step` allows every order of calls.  What the code reads of the heap
(`then_callable`, `callable?`) and how it builds terms are parameters (`Env`).

Three fields are read by no operation: `history` (every job ever enqueued, with the promise
whose waiter it was made of), `registered` (every waiter ever registered) and the flag `called`
of an assimilation (whether one of its two resolvers was called, or its thenable threw).
-/

namespace QuickBeam.Vm.Runtime.Promise

open QuickBeam.Lib

/-! ### Values and results -/

/-- A term that is no promise: a reference to a heap object, or any other term. -/
inductive Plain (ν : Type) where
  | object (id : ℕ)
  | term (v : ν)
deriving DecidableEq

inductive Value (ν : Type) where
  | promise (id : ℕ)
  | plain (v : Plain ν)
deriving DecidableEq

inductive Resolution (ν : Type) where
  | ok (value : Value ν)
  | error (reason : Value ν)
deriving DecidableEq

/-- What a promise settles with: a promise is never fulfilled with a promise. -/
inductive Result (ν : Type) where
  | ok (value : Plain ν)
  | error (reason : Value ν)
deriving DecidableEq

def Result.resolution {ν : Type} : Result ν → Resolution ν
  | .ok v => .ok (.plain v)
  | .error reason => .error reason

/-- A promise record; `{:fulfilled, v}` and `{:rejected, r}` are the two settled ones. -/
inductive PromiseState (ν : Type) where
  | pending
  | resolving
  | settled (result : Result ν)
deriving DecidableEq

/-- `state/2`: a promise that is being resolved counts as pending. -/
def PromiseState.result? {ν : Type} : PromiseState ν → Option (Result ν)
  | .settled r => some r
  | _ => none

inductive Then (ν : Type) where
  | none
  | callable (callable : Value ν)
  | getter (getter : Value ν) (receiver : Plain ν)

/-- What promises need of the heap and of terms. -/
structure Env (ν η : Type) where
  thenCallable : η → ℕ → Then ν
  callable : η → Value ν → Bool
  promiseSelfResolution : ν
  valueList : List (Value ν) → ν
  fulfilledEntry : Value ν → ν
  rejectedEntry : Value ν → ν
  aggregateError : List (Value ν) → ν
  unwrapReason : Value ν → Value ν

/-! ### Waiters and jobs -/

inductive ReactionKind where
  | thenReaction
  | finallyReaction
deriving DecidableEq

structure Reaction (ν : Type) where
  resultPromise : ℕ
  kind : ReactionKind
  onFulfilled : Value ν
  onRejected : Value ν
deriving DecidableEq

def Reaction.callback {ν : Type} (reaction : Reaction ν) : Result ν → Value ν
  | .ok _ => reaction.onFulfilled
  | .error _ => reaction.onRejected

abbrev Coroutine := ℕ

inductive Waiter (ν : Type) where
  | coroutine (coroutine : Coroutine)
  | reaction (reaction : Reaction ν)
  | adopt (target : ℕ)
  | finallyAdopt (target : ℕ) (original : Result ν)
  | aggregate (id index : ℕ)
deriving DecidableEq

inductive Job (ν : Type) where
  | resumeCoroutine (coroutine : Coroutine) (result : Result ν)
  | runReaction (reaction : Reaction ν) (result : Result ν)
  | settleAssimilated (target : ℕ) (result : Result ν)
  | settlePromise (target : ℕ) (result : Result ν)
  | aggregateSettle (id index : ℕ) (result : Result ν)
  | assimilateThenable (promise : ℕ) (thenable : Plain ν) (callable : Value ν)
  | microtask (result : Resolution ν)
deriving DecidableEq

/-- The result after a `finally` callback that ended with `result`. -/
def Result.afterFinally {ν : Type} (original : Result ν) : Result ν → Result ν
  | .ok _ => original
  | .error reason => .error reason

/-- `enqueue_waiter/3`: the job a waiter becomes. -/
def Waiter.job {ν : Type} : Waiter ν → Result ν → Job ν
  | .coroutine c, r => .resumeCoroutine c r
  | .reaction rx, r => .runReaction rx r
  | .adopt target, r => .settleAssimilated target r
  | .finallyAdopt target original, r => .settlePromise target (original.afterFinally r)
  | .aggregate id index, r => .aggregateSettle id index r

/-! ### State -/

inductive AggregateKind where
  | all
  | allSettled
  | any
  | race
deriving DecidableEq

structure Aggregate (ν : Type) where
  kind : AggregateKind
  promise : ℕ
  remaining : ℕ
  values : Assoc ℕ (Value ν)

/-- A `{:read_thenable, promise, thenable, getter}` of the synchronous queue. -/
structure SyncJob (ν : Type) where
  promise : ℕ
  thenable : Plain ν
  getter : Value ν

/-- `%Boundary.ThenGetter{}`: a getter of `then` that is running. -/
structure ThenGetter (ν : Type) where
  promise : ℕ
  thenable : Plain ν

/-- The resolvers `{:promise_resolver, promise, :resolve_assimilated | :reject_assimilated}`
handed to one thenable. -/
structure Assimilation where
  promise : ℕ
  called : Bool

/-- `%Boundary.Reaction{}`: a reaction callback that is running. -/
structure ReactionBoundary (ν : Type) where
  promise : ℕ
  mode : ReactionKind
  original : Result ν

/-- A waiter registered on a promise; `immediate` when the promise was settled and the waiter
took effect without a job. -/
structure Registration (ν : Type) where
  promise : ℕ
  waiter : Waiter ν
  immediate : Bool
deriving DecidableEq

structure State (ν η : Type) where
  promises : Assoc ℕ (PromiseState ν)
  waiters : Assoc ℕ (List (Waiter ν))
  aggregates : Assoc ℕ (Aggregate ν)
  jobs : List (Job ν)
  syncJobs : List (SyncJob ν)
  nextPromise : ℕ
  heap : η
  getters : Assoc ℕ (ThenGetter ν)
  assimilations : Assoc ℕ Assimilation
  reactions : Assoc ℕ (ReactionBoundary ν)
  nextRef : ℕ
  history : List (Option ℕ × Job ν)
  registered : List (Registration ν)

section Operations

variable {ν η : Type} (env : Env ν η)

/-! ### Small updates -/

def State.setPromise (s : State ν η) (p : ℕ) (st : PromiseState ν) : State ν η :=
  { s with promises := s.promises.put p st }

/-- `enqueue/2`, for the promise whose waiter the job was made of. -/
def State.enqueue (s : State ν η) (origin : Option ℕ) (job : Job ν) : State ν η :=
  { s with jobs := s.jobs ++ [job], history := s.history ++ [(origin, job)] }

def State.enqueueSync (s : State ν η) (job : SyncJob ν) : State ν η :=
  { s with syncJobs := s.syncJobs ++ [job] }

def State.register (s : State ν η) (p : ℕ) (w : Waiter ν) (immediate : Bool) : State ν η :=
  { s with registered := s.registered ++ [⟨p, w, immediate⟩] }

def State.waitersOf (s : State ν η) (p : ℕ) : List (Waiter ν) := (s.waiters.get? p).getD []

def State.addWaiter (s : State ν η) (p : ℕ) (w : Waiter ν) : State ν η :=
  { s with waiters := s.waiters.put p (w :: s.waitersOf p) }.register p w false

def new (s : State ν η) : ℕ × State ν η :=
  (s.nextPromise,
    { s with promises := s.promises.put s.nextPromise .pending, nextPromise := s.nextPromise + 1 })

/-! ### Settling -/

/-- A pending promise settles: its waiters become jobs, the oldest first. -/
def State.wake (s : State ν η) (p : ℕ) (r : Result ν) : State ν η :=
  (s.waitersOf p).reverse.foldl (fun s w => s.enqueue (some p) (w.job r))
    { s.setPromise p (.settled r) with waiters := s.waiters.delete p }

/-- `settle_result/3`; `none` when the promise does not exist (`Map.fetch!`). -/
def settleResult (s : State ν η) (p : ℕ) (r : Result ν) : Option (State ν η) :=
  (s.promises.get? p).map fun st =>
    match st with
    | .pending => s.wake p r
    | _ => s

def settlePlain (s : State ν η) (p : ℕ) : Plain ν → Option (State ν η)
  | .object id =>
    (s.promises.get? p).bind fun st =>
      match st with
      | .pending =>
        match env.thenCallable s.heap id with
        | .callable callable =>
          some ((s.setPromise p .resolving).enqueue none
            (.assimilateThenable p (.object id) callable))
        | .getter getter receiver =>
          some ((s.setPromise p .resolving).enqueueSync ⟨p, receiver, getter⟩)
        | .none => settleResult s p (.ok (.object id))
      | _ => some s
  | .term v => settleResult s p (.ok (.term v))

/-- `settle/3` with the settlement of another promise. -/
def settleAs (s : State ν η) (p : ℕ) : Result ν → Option (State ν η)
  | .ok v => settlePlain env s p v
  | .error reason => settleResult s p (.error reason)

def settle (s : State ν η) (p : ℕ) : Resolution ν → Option (State ν η)
  | .ok (.promise q) =>
    if q = p then settleResult s p (.error (.plain (.term env.promiseSelfResolution)))
    else
      (s.promises.get? p).bind fun st =>
        match st with
        | .pending =>
          (s.promises.get? q).bind fun source =>
            match source.result? with
            | none => some ((s.setPromise p .resolving).addWaiter q (.adopt p))
            | some r => (settleAs env s p r).map (·.register q (.adopt p) true)
        | _ => some s
  | .ok (.plain v) => settlePlain env s p v
  | .error reason => settleResult s p (.error reason)

def settleAssimilated (s : State ν η) (p : ℕ) (r : Resolution ν) : Option (State ν η) :=
  (s.promises.get? p).bind fun st =>
    match st with
    | .resolving => settle env (s.setPromise p .pending) p r
    | _ => some s

def fulfillAssimilated (s : State ν η) (p : ℕ) (v : Plain ν) : Option (State ν η) :=
  (s.promises.get? p).bind fun st =>
    match st with
    | .resolving => settleResult (s.setPromise p .pending) p (.ok v)
    | _ => some s

/-! ### Waiting -/

/-- `await/3`, `attach_reaction/4` and `add_aggregate_waiter/4`: a waiter of a settled promise
becomes a job at once. -/
def attach (s : State ν η) (p : ℕ) (w : Waiter ν) : Option (State ν η) :=
  (s.promises.get? p).map fun st =>
    match st.result? with
    | none => s.addWaiter p w
    | some r => (s.register p w false).enqueue (some p) (w.job r)

def await (s : State ν η) (p : ℕ) (c : Coroutine) : Option (State ν η) := attach s p (.coroutine c)

def react (s : State ν η) (source : ℕ) (kind : ReactionKind) (onFulfilled onRejected : Value ν) :
    Option (State ν η) :=
  let (p, s) := new s
  attach s source (.reaction ⟨p, kind, onFulfilled, onRejected⟩)

def settleAfterFinally (s : State ν η) (source target : ℕ) (original : Result ν) :
    Option (State ν η) :=
  (s.promises.get? source).bind fun st =>
    match st.result? with
    | none => some (s.addWaiter source (.finallyAdopt target original))
    | some r =>
      (settleAs env s target (original.afterFinally r)).map
        (·.register source (.finallyAdopt target original) true)

def fromValue (s : State ν η) : Value ν → Option (ℕ × State ν η)
  | .promise p => some (p, s)
  | .plain v =>
    let (p, s) := new s
    (settlePlain env s p v).map fun s => (p, s)

/-! ### Aggregates -/

def aggregateValue (id : ℕ) (s : State ν η) (value : Value ν × ℕ) : Option (State ν η) :=
  (fromValue env s value.1).bind fun (source, s) => attach s source (.aggregate id value.2)

def aggregateInto (s : State ν η) (p : ℕ) (kind : AggregateKind) (values : List (Value ν)) :
    Option (State ν η) :=
  if values.isEmpty then
    match kind with
    | .all => settle env s p (.ok (.plain (.term (env.valueList []))))
    | .allSettled => settle env s p (.ok (.plain (.term (env.valueList []))))
    | .any => settle env s p (.error (.plain (.term (env.aggregateError []))))
    | .race => some s
  else
    let aggregate : Aggregate ν := ⟨kind, p, values.length, ∅⟩
    values.zipIdx.foldlM (aggregateValue env s.nextRef)
      { s with aggregates := s.aggregates.put s.nextRef aggregate, nextRef := s.nextRef + 1 }

def orderedValues (aggregate : Aggregate ν) : Option (List (Value ν)) :=
  (List.range aggregate.values.size).mapM aggregate.values.get?

def Aggregate.record (aggregate : Aggregate ν) (index : ℕ) (value : Value ν) : Aggregate ν :=
  { aggregate with
    remaining := aggregate.remaining - 1
    values := aggregate.values.put index value }

/-- An aggregate that has all its values settles its promise with `finish`; otherwise it is
stored. -/
def finishOrStore (s : State ν η) (id : ℕ) (aggregate : Aggregate ν)
    (finish : List (Value ν) → Resolution ν) : Option (State ν η) :=
  if aggregate.remaining = 0 then
    (orderedValues aggregate).bind fun values =>
      settle env { s with aggregates := s.aggregates.delete id } aggregate.promise (finish values)
  else some { s with aggregates := s.aggregates.put id aggregate }

def updateAggregate (s : State ν η) (id : ℕ) (aggregate : Aggregate ν) (index : ℕ)
    (r : Result ν) : Option (State ν η) :=
  let closed := { s with aggregates := s.aggregates.delete id }
  let allValues := fun values => Resolution.ok (.plain (.term (env.valueList values)))
  match aggregate.kind, r with
  | .race, r => settle env closed aggregate.promise r.resolution
  | .all, .ok v => finishOrStore env s id (aggregate.record index (.plain v)) allValues
  | .all, .error reason => settle env closed aggregate.promise (.error reason)
  | .allSettled, .ok v =>
    finishOrStore env s id
      (aggregate.record index (.plain (.term (env.fulfilledEntry (.plain v))))) allValues
  | .allSettled, .error reason =>
    finishOrStore env s id
      (aggregate.record index (.plain (.term (env.rejectedEntry (env.unwrapReason reason)))))
      allValues
  | .any, .ok v => settle env closed aggregate.promise (.ok (.plain v))
  | .any, .error reason =>
    finishOrStore env s id (aggregate.record index (env.unwrapReason reason)) fun values =>
      .error (.plain (.term (env.aggregateError values)))

def settleAggregate (s : State ν η) (id index : ℕ) (r : Result ν) : Option (State ν η) :=
  match s.aggregates.get? id with
  | none => some s
  | some aggregate => updateAggregate env s id aggregate index r

/-! ### Jobs and boundaries -/

/-- `run_job` of `runtime.ex`; a coroutine or a microtask goes on as JavaScript. -/
def runJob (s : State ν η) : Job ν → Option (State ν η)
  | .resumeCoroutine _ _ => some s
  | .microtask _ => some s
  | .runReaction reaction r =>
    if env.callable s.heap (reaction.callback r) then
      some { s with
        reactions := s.reactions.put s.nextRef ⟨reaction.resultPromise, reaction.kind, r⟩
        nextRef := s.nextRef + 1 }
    else settle env s reaction.resultPromise r.resolution
  | .settleAssimilated p r => settleAssimilated env s p r.resolution
  | .settlePromise p r => settle env s p r.resolution
  | .aggregateSettle id index r => settleAggregate env s id index r
  | .assimilateThenable p _ _ =>
    some { s with
      assimilations := s.assimilations.put s.nextRef ⟨p, false⟩
      nextRef := s.nextRef + 1 }

def completeThenGetter (s : State ν η) (boundary : ThenGetter ν) (value : Value ν) :
    Option (State ν η) :=
  if env.callable s.heap value then
    some (s.enqueue none (.assimilateThenable boundary.promise boundary.thenable value))
  else fulfillAssimilated s boundary.promise boundary.thenable

def completeReaction (s : State ν η) (boundary : ReactionBoundary ν) (value : Value ν) :
    Option (State ν η) :=
  match boundary.mode with
  | .thenReaction => settle env s boundary.promise (.ok value)
  | .finallyReaction =>
    (fromValue env s value).bind fun (completion, s) =>
      settleAfterFinally env s completion boundary.promise boundary.original

/-! ### Steps -/

/-- The steps of an evaluation that concern promises. -/
inductive Event (ν η : Type) where
  /-- JavaScript runs: it changes the heap, creates promises, waits for them, combines them. -/
  | setHeap (heap : η)
  | newPromise
  | react (source : ℕ) (kind : ReactionKind) (onFulfilled onRejected : Value ν)
  | await (source : ℕ) (coroutine : Coroutine)
  | awaitImmediate (coroutine : Coroutine) (result : Result ν)
  | suspendMicrotask (result : Resolution ν)
  | fromValue (value : Value ν)
  | aggregateInto (promise : ℕ) (kind : AggregateKind) (values : List (Value ν))
  /-- `Promise.settle` of a promise: a call of its `resolve` or `reject`, a throw of its
  executor, the end of its async function or host call. -/
  | settle (promise : ℕ) (resolution : Resolution ν)
  /-- A call of a resolver handed to a thenable, or a throw of that thenable. -/
  | callResolver (assimilation : ℕ) (resolution : Resolution ν)
  /-- A synchronous job calls a getter of `then`, which returns or throws. -/
  | readThenable
  | getterReturns (getter : ℕ) (value : Value ν)
  | getterThrows (getter : ℕ) (reason : Value ν)
  /-- A reaction callback returns or throws. -/
  | reactionReturns (reaction : ℕ) (value : Value ν)
  | reactionThrows (reaction : ℕ) (reason : Value ν)
  /-- The event loop takes the next job. -/
  | runJob

def State.markCalled (s : State ν η) (a : ℕ) (assimilation : Assimilation) : State ν η :=
  if assimilation.called then s
  else { s with assimilations := s.assimilations.put a { assimilation with called := true } }

/-- One step; `none` when it cannot happen. -/
def step (s : State ν η) : Event ν η → Option (State ν η)
  | .setHeap heap => some { s with heap := heap }
  | .newPromise => some (new s).2
  | .react source kind f g => react s source kind f g
  | .await source c => await s source c
  | .awaitImmediate c r => some (s.enqueue none (.resumeCoroutine c r))
  | .suspendMicrotask r => some (s.enqueue none (.microtask r))
  | .fromValue v => (fromValue env s v).map Prod.snd
  | .aggregateInto p kind values => aggregateInto env s p kind values
  | .settle p r => settle env s p r
  | .callResolver a r =>
    (s.assimilations.get? a).bind fun assimilation =>
      settleAssimilated env (s.markCalled a assimilation) assimilation.promise r
  | .readThenable =>
    match s.syncJobs with
    | [] => none
    | job :: rest =>
      some { s with
        syncJobs := rest
        getters := s.getters.put s.nextRef ⟨job.promise, job.thenable⟩
        nextRef := s.nextRef + 1 }
  | .getterReturns g value =>
    (s.getters.get? g).bind fun boundary =>
      completeThenGetter env { s with getters := s.getters.delete g } boundary value
  | .getterThrows g reason =>
    (s.getters.get? g).bind fun boundary =>
      settleAssimilated env { s with getters := s.getters.delete g } boundary.promise
        (.error reason)
  | .reactionReturns id value =>
    (s.reactions.get? id).bind fun boundary =>
      completeReaction env { s with reactions := s.reactions.delete id } boundary value
  | .reactionThrows id reason =>
    (s.reactions.get? id).bind fun boundary =>
      settle env { s with reactions := s.reactions.delete id } boundary.promise (.error reason)
  | .runJob =>
    match s.jobs with
    | [] => none
    | job :: rest => runJob env { s with jobs := rest } job

def initial (heap : η) : State ν η :=
  { promises := ∅, waiters := ∅, aggregates := ∅, jobs := [], syncJobs := [], nextPromise := 0
    heap := heap, getters := ∅, assimilations := ∅, reactions := ∅, nextRef := 0, history := []
    registered := [] }

def machine : Machine (State ν η) (Event ν η) where
  init s := ∃ heap, s = initial heap
  step s e := step env s e

end Operations

end QuickBeam.Vm.Runtime.Promise
