import QuickBeam.Lib.GenServer
import QuickBeam.Lib.Transition

/-!
# The lock manager (`lock_manager.ex`)

One process keeps the locks that are held and the requests that wait, over all runtimes and lock
names.  A request is granted when it does not conflict with the held locks; every release and
every death of a holder goes once through the waiting requests.

Monitors and references are explicit: `monitors` are those that are set, not removed and not yet
consumed by their `DOWN` message, and references are drawn from `nextRef`.  The fields `requests`
and `replies` record what has arrived and what was answered; no handler reads them.
-/

namespace QuickBeam.LockManager

open QuickBeam.Lib

/-! ### Data -/

/-- `%Lock{}`; a mode is any string, and only `"shared"` is shared. -/
structure Lock where
  name : String
  mode : String
  holder : Pid
  ref : Ref
deriving DecidableEq

/-- `%PendingRequest{}`; `origin` is the source's `from`. -/
structure PendingRequest where
  name : String
  mode : String
  origin : From
  holder : Pid
  ref : Ref
deriving DecidableEq

def PendingRequest.lock (request : PendingRequest) : Lock :=
  ⟨request.name, request.mode, request.holder, request.ref⟩

inductive Reply where
  | granted
  | notAvailable
  | holderDown
deriving DecidableEq

structure State where
  held : List Lock
  pending : List PendingRequest
  monitors : List (Ref × Pid)
  dead : List Pid
  nextRef : Ref
  requests : List PendingRequest
  replies : List (From × Reply)

def initial : State := ⟨[], [], [], [], 0, [], []⟩

/-! ### Granting -/

def canGrant (held : List Lock) (name mode : String) : Bool :=
  let existing := held.filter fun lock => lock.name = name
  if existing = [] then true
  else if mode = "shared" then existing.all fun lock => lock.mode = "shared"
  else false

/-- The pass of `try_grant_pending/1`: the requests granted, the last one first, and those that
still wait, in their order. -/
def grantPending (held : List Lock) :
    List PendingRequest → List PendingRequest → List PendingRequest × List PendingRequest
  | granted, [] => (granted, [])
  | granted, request :: rest =>
    if canGrant (held ++ granted.map PendingRequest.lock) request.name request.mode then
      grantPending held (request :: granted) rest
    else
      let (granted, pending) := grantPending held granted rest
      (granted, request :: pending)

def tryGrantPending (s : State) : State :=
  let (granted, pending) := grantPending s.held [] s.pending
  { s with
    held := s.held ++ granted.map PendingRequest.lock
    pending
    replies := s.replies ++ granted.reverse.map fun request => (request.origin, .granted) }

/-! ### Handlers -/

/-- The request that arrives next, from a process `owner`. -/
def State.arriving (s : State) (owner holder : Pid) (name mode : String) : PendingRequest :=
  ⟨name, mode, ⟨owner, s.nextRef⟩, holder, s.nextRef⟩

def handleRequest (s : State) (owner holder : Pid) (name mode : String) (ifAvailable : Bool) :
    State :=
  let request := s.arriving owner holder name mode
  let s := { s with nextRef := s.nextRef + 1, requests := s.requests ++ [request] }
  if canGrant s.held name mode then
    { s with
      held := request.lock :: s.held
      monitors := (request.ref, holder) :: s.monitors
      replies := s.replies ++ [(request.origin, .granted)] }
  else if ifAvailable then
    -- The monitor is removed again.
    { s with replies := s.replies ++ [(request.origin, .notAvailable)] }
  else
    { s with
      pending := s.pending ++ [request]
      monitors := (request.ref, holder) :: s.monitors }

/-- `handle_call({:release, …})`: every lock of the name that the holder has is released. -/
def handleRelease (s : State) (name : String) (holder : Pid) : State :=
  let released := s.held.filter fun lock => lock.name = name ∧ lock.holder = holder
  let remaining := s.held.filter fun lock => ¬ (lock.name = name ∧ lock.holder = holder)
  tryGrantPending
    { s with
      held := remaining
      monitors := s.monitors.filter fun monitor => monitor.1 ∉ released.map Lock.ref }

/-- `handle_info({:DOWN, …})`; the message consumes the monitor. -/
def handleDown (s : State) (ref : Ref) : State :=
  let released := s.held.filter fun lock => lock.ref = ref
  let cancelled := s.pending.filter fun request => request.ref = ref
  let s :=
    { s with
      held := s.held.filter fun lock => ¬ lock.ref = ref
      pending := s.pending.filter fun request => ¬ request.ref = ref
      monitors := s.monitors.filter fun monitor => ¬ monitor.1 = ref
      replies := s.replies ++ cancelled.map fun request => (request.origin, .holderDown) }
  if released ≠ [] then tryGrantPending s else s

/-! ### Steps -/

inductive Event where
  | request (owner holder : Pid) (name mode : String) (ifAvailable : Bool)
  | release (name : String) (holder : Pid)
  | query
  | dies (holder : Pid)
  | down (ref : Ref)
deriving DecidableEq

/-- A `DOWN` message comes from a monitor of a dead process. -/
def step (s : State) : Event → Option State
  | .request owner holder name mode ifAvailable =>
    some (handleRequest s owner holder name mode ifAvailable)
  | .release name holder => some (handleRelease s name holder)
  | .query => some s
  | .dies holder => some { s with dead := holder :: s.dead }
  | .down ref =>
    if ∃ monitor ∈ s.monitors, monitor.1 = ref ∧ monitor.2 ∈ s.dead then some (handleDown s ref)
    else none

def machine : Machine State Event where
  init s := s = initial
  step := step

end QuickBeam.LockManager
