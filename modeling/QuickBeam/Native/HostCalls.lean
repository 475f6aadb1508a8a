import QuickBeam.Lib.Transition

/-!
# Host calls (`beam_call.zig`, `runtime.ex`, `context.ex`, `worker.zig`)

`Beam.call` makes a promise and `Beam.callSync` a slot, each under a fresh id that travels to the
owner process, to a task that runs the handler, and back with the answer.  An answer that finds a
slot is put there; any other goes through the queue to `pending_calls`.

A task answers when its handler returns or raises; its `rescue` does not see a throw or an exit.
Terms are of any type.  `sent`, `answers` and `settled` are records.
-/

namespace QuickBeam.Native

open QuickBeam.Lib

variable {α : Type}

/-! ### The two tables and the messages -/

/-- A resolve message, or a reject message with its reason. -/
structure Answer (α : Type) where
  id : ℕ
  result : Except String α

/-- `SyncCallSlot`. -/
structure Slot (α : Type) where
  id : ℕ
  result : Option (Answer α)

structure HostCalls (α : Type) where
  nextCallId : ℕ
  pendingCalls : List ℕ
  syncSlots : List (Slot α)
  shuttingDown : Bool
  /-- `{:beam_call, …}` messages in the owner's mailbox. -/
  requests : List ℕ
  /-- Tasks whose handler runs. -/
  tasks : List ℕ
  queue : List (Answer α)
  sent : List ℕ
  answers : List (Answer α)
  /-- The promises and slots that were settled, each with the answer it got. -/
  settled : List (ℕ × Answer α)

inductive Outcome (α : Type) where
  | returns (term : α)
  | raises (message : String)
  | throws
  | exits

/-- What the owner does with a call: reject it, answer it itself, or start a task. -/
inductive Handler (α : Type) where
  | unknown (name : String)
  | internal (term : α)
  | task

namespace HostCalls

def initial : HostCalls α := ⟨1, [], [], false, [], [], [], [], [], []⟩

/-! ### Steps -/

/-- `beam_call_impl`. -/
def call (s : HostCalls α) : HostCalls α :=
  { s with
    nextCallId := s.nextCallId + 1
    pendingCalls := s.nextCallId :: s.pendingCalls
    requests := s.requests ++ [s.nextCallId]
    sent := s.sent ++ [s.nextCallId] }

/-- `beam_call_sync_impl` up to the wait for its slot. -/
def callSync (s : HostCalls α) : HostCalls α :=
  if s.shuttingDown then { s with nextCallId := s.nextCallId + 1 }
  else
    { s with
      nextCallId := s.nextCallId + 1
      syncSlots := ⟨s.nextCallId, none⟩ :: s.syncSlots
      requests := s.requests ++ [s.nextCallId]
      sent := s.sent ++ [s.nextCallId] }

/-- `resolve_call_term` and `reject_call_term`. -/
def answer (s : HostCalls α) (a : Answer α) : HostCalls α :=
  if a.id ∈ s.syncSlots.map Slot.id then
    { s with
      syncSlots := s.syncSlots.map fun slot => if slot.id = a.id then { slot with result := a } else slot
      answers := s.answers ++ [a] }
  else { s with queue := s.queue ++ [a], answers := s.answers ++ [a] }

/-- `handle_info({:beam_call, …})`. -/
def dispatch (s : HostCalls α) (handler : Handler α) : Option (HostCalls α) :=
  match s.requests with
  | [] => none
  | id :: requests =>
    match handler with
    | .unknown name => some ({ s with requests }.answer ⟨id, .error ("Unknown handler: " ++ name)⟩)
    | .internal term => some ({ s with requests }.answer ⟨id, .ok term⟩)
    | .task => some { s with requests, tasks := s.tasks ++ [id] }

def taskEnds (s : HostCalls α) (id : ℕ) (outcome : Outcome α) : Option (HostCalls α) :=
  if id ∈ s.tasks then
    let s := { s with tasks := s.tasks.erase id }
    match outcome with
    | .returns term => some (s.answer ⟨id, .ok term⟩)
    | .raises message => some (s.answer ⟨id, .error message⟩)
    | .throws => some s
    | .exits => some s
  else none

/-- `resolve_pending_term` and `reject_pending` for the first message of the queue. -/
def process (s : HostCalls α) : Option (HostCalls α) :=
  match s.queue with
  | [] => none
  | a :: queue =>
    if a.id ∈ s.pendingCalls then
      some { s with
        queue
        pendingCalls := s.pendingCalls.erase a.id
        settled := s.settled ++ [(a.id, a)] }
    else some { s with queue }

/-- A waiting `callSync` goes on and removes its slot. -/
def wake (s : HostCalls α) (i : ℕ) : Option (HostCalls α) :=
  match s.syncSlots[i]? with
  | none => none
  | some slot =>
    if s.shuttingDown then some { s with syncSlots := s.syncSlots.eraseIdx i }
    else
      match slot.result with
      | none => none
      | some a =>
        some { s with
          syncSlots := s.syncSlots.eraseIdx i
          settled := s.settled ++ [(slot.id, a)] }

inductive Event (α : Type) where
  | call
  | callSync
  | dispatch (handler : Handler α)
  | taskEnds (id : ℕ) (outcome : Outcome α)
  | process
  | wake (i : ℕ)
  | reset
  | shutdown

def step (s : HostCalls α) : Event α → Option (HostCalls α)
  | .call => some s.call
  | .callSync => some s.callSync
  | .dispatch handler => s.dispatch handler
  | .taskEnds id outcome => s.taskEnds id outcome
  | .process => s.process
  | .wake i => s.wake i
  | .reset => some { s with pendingCalls := [] }
  | .shutdown => some { s with shuttingDown := true }

def machine : Machine (HostCalls α) (Event α) where
  init s := s = initial
  step := step

end HostCalls

end QuickBeam.Native
