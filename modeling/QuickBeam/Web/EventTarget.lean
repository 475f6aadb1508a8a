import QuickBeam.Lib.Assoc
import QuickBeam.Lib.Transition

/-!
# Event targets and abort signals (`event-target.ts`, `abort.ts`, `event.ts`)

The program is a machine: scripts run at the bottom of the stack and in every listener that is
being called, and between two calls a dispatch is in its loop.  Listeners may do whatever scripts
do, also dispatch again, so the stack holds the dispatches under way.

Objects (targets, signals, events, listener entries, closures) are numbers.  A signal is an event
target as well.  The history `trace` is never read by the program.
-/

namespace QuickBeam.Web.EventTarget

open QuickBeam.Lib

abbrev Text := List ℕ

def abort : Text := [0x61, 0x62, 0x6F, 0x72, 0x74]

/-! ### Objects -/

/-- A script's function or handler object, or the closure that `addEventListener` leaves on a
signal, with what it captures. -/
inductive Callback (F : Type)
  | script (f : F)
  | removal (closure target : ℕ) (type : Text) (callback : F)
  deriving DecidableEq

structure ListenerEntry (F : Type) where
  serial : ℕ
  callback : Callback F
  once : Bool
  signal : Option ℕ
  deriving DecidableEq

instance {F : Type} [DecidableEq F] : LawfulBEq (ListenerEntry F) := inferInstance

structure Event where
  type : Text
  stopImmediate : Bool
  defaultPrevented : Bool

/-- A `dispatchEvent` under way: what is left of the snapshot, and the entry whose callback runs.
`aborts` tells the dispatches that `SYM_ABORT` makes from those of scripts. -/
structure Dispatch (F : Type) where
  id : ℕ
  target : ℕ
  type : Text
  event : ℕ
  rest : List (ListenerEntry F)
  entry : Option (ListenerEntry F)
  aborts : Bool

inductive Frame (F : Type)
  | dispatch (d : Dispatch F)
  | onabort (signal event : ℕ)

/-- What happens to entries and signals.  A removal names the signal whose abort made it. -/
inductive Happening (F : Type)
  | registered (target : ℕ) (type : Text) (entry : ListenerEntry F)
  | removed (entry : ListenerEntry F) (signal : Option ℕ)
  | aborted (signal : ℕ)
  | began (id target : ℕ) (type : Text) (snapshot : List (ListenerEntry F))
  | called (id : ℕ) (entry : ListenerEntry F)
  | ended (id : ℕ) (result : Bool)
  | stopped (id : ℕ) (result : Bool)
  | threw (id : ℕ)
  deriving DecidableEq

structure State (F : Type) where
  listeners : Assoc (ℕ × Text) (List (ListenerEntry F))
  /-- The entries whose `_removed` is set. -/
  removed : List (ListenerEntry F)
  /-- The signals whose `#aborted` is set. -/
  aborted : List ℕ
  onabort : Assoc ℕ F
  events : List Event
  stack : List (Frame F)
  serial : ℕ
  dispatches : ℕ
  trace : List (Happening F)

variable {F : Type} [DecidableEq F]

def initial : State F := ⟨∅, [], [], ∅, [], [], 0, 0, []⟩

namespace State

variable (s : State F) (target : ℕ) (type : Text)

def record (h : Happening F) : State F := { s with trace := s.trace ++ [h] }

def listed : List (ListenerEntry F) := (s.listeners.get? (target, type)).getD []

/-! ### Registering and removing -/

/-- `for (const entry of list) if (entry.callback === callback) return`. -/
def registers (callback : Callback F) : Bool :=
  (s.listed target type).any fun entry => decide (entry.callback = callback)

/-- A new entry goes to the list that was read at the start, or into a new one. -/
def store (list : Option (List (ListenerEntry F))) (callback : Callback F) (once : Bool)
    (signal : Option ℕ) : State F :=
  let entry : ListenerEntry F := ⟨s.serial, callback, once, signal⟩
  { s with
    listeners := s.listeners.put (target, type)
      (if list.isSome then s.listed target type ++ [entry] else [entry])
    serial := s.serial + 1
    trace := s.trace ++ [.registered target type entry] }

/-- `addEventListener` without a signal. -/
def addUnsignalled (callback : Callback F) (once : Bool) : State F :=
  if s.registers target type callback then s
  else s.store target type (s.listeners.get? (target, type)) callback once none

def addEventListener (callback : F) (once : Bool) (signal : Option ℕ) : State F :=
  match signal with
  | none => s.addUnsignalled target type (.script callback) once
  | some g =>
    let list := s.listeners.get? (target, type)
    if s.registers target type (.script callback) then s
    else if g ∈ s.aborted then s
    else
      (s.addUnsignalled g abort (.removal s.serial target type callback) false).store target type
        list (.script callback) once signal

def removeEventListener (callback : Callback F) (signal : Option ℕ) : State F :=
  match (s.listed target type).find? fun entry => decide (entry.callback = callback) with
  | none => s
  | some entry =>
    let list := (s.listed target type).eraseP fun entry => decide (entry.callback = callback)
    { s with
      listeners :=
        if list.isEmpty then s.listeners.delete (target, type)
        else s.listeners.put (target, type) list
      removed := entry :: s.removed
      trace := s.trace ++ [.removed entry signal] }

/-! ### Dispatching -/

/-- `dispatchEvent` up to its loop.  Without a list it returns at once. -/
def dispatchEvent (event : ℕ) (aborts : Bool) : Option (State F) := do
  let e ← s.events[event]?
  let id := s.dispatches
  match s.listeners.get? (target, e.type) with
  | none =>
    some { s with
      dispatches := id + 1
      trace := s.trace ++ [.began id target e.type [], .ended id (!e.defaultPrevented)] }
  | some list =>
    some { s with
      dispatches := id + 1
      stack := .dispatch ⟨id, target, e.type, event, list, none, aborts⟩ :: s.stack
      trace := s.trace ++ [.began id target e.type list] }

def finish (d : Dispatch F) (entry : ListenerEntry F) : State F :=
  if entry.once then s.removeEventListener d.target d.type entry.callback none else s

/-- Call an entry.  A script's callback goes on in later steps, the closure on a signal runs to its
end. -/
def call (d : Dispatch F) (below : List (Frame F)) (entry : ListenerEntry F)
    (rest : List (ListenerEntry F)) : State F :=
  match entry.callback with
  | .script _ =>
    { s with
      stack := .dispatch { d with rest := rest, entry := some entry } :: below
      trace := s.trace ++ [.called d.id entry] }
  | .removal _ target type callback =>
    let called : State F :=
      { s with
        stack := .dispatch { d with rest := rest } :: below
        trace := s.trace ++ [.called d.id entry] }
    (called.removeEventListener target type (.script callback)
      (if d.aborts then some d.target else none)).finish d entry

def advance (d : Dispatch F) (below : List (Frame F)) : Option (State F) := do
  let e ← s.events[d.event]?
  match d.rest with
  | [] => some { s with stack := below, trace := s.trace ++ [.ended d.id (!e.defaultPrevented)] }
  | entry :: rest =>
    if entry ∈ s.removed then
      some { s with stack := .dispatch { d with rest := rest } :: below }
    else if e.stopImmediate then
      some { s with stack := below, trace := s.trace ++ [.stopped d.id (!e.defaultPrevented)] }
    else some (s.call d below entry rest)

/-- `SYM_ABORT`, up to the call of `onabort`. -/
def abortSignal (signal : ℕ) : Option (State F) :=
  if signal ∈ s.aborted then some s
  else
    let event := s.events.length
    let s : State F :=
      { s with
        aborted := signal :: s.aborted
        events := s.events ++ [⟨abort, false, false⟩]
        trace := s.trace ++ [.aborted signal] }
    match s.onabort.get? signal with
    | some _ => some { s with stack := .onabort signal event :: s.stack }
    | none => s.dispatchEvent signal event true

def scriptRuns : Bool :=
  match s.stack with
  | .dispatch d :: _ => d.entry.isSome
  | _ => true

end State

/-! ### The machine -/

/-- What scripts do, the end of a callback by a return or a throw, and a round of the loop. -/
inductive Step (F : Type)
  | create (type : Text)
  | add (target : ℕ) (type : Text) (callback : Option F) (once : Bool) (signal : Option ℕ)
  | remove (target : ℕ) (type : Text) (callback : Option F)
  | dispatch (target event : ℕ)
  | stopImmediate (event : ℕ)
  | preventDefault (event : ℕ)
  | setOnabort (signal : ℕ) (callback : Option F)
  | abort (signal : ℕ)
  | ret
  | throw
  | advance

def scriptStep (s : State F) : Step F → Option (State F)
  | .create type => some { s with events := s.events ++ [⟨type, false, false⟩] }
  | .add _ _ none _ _ => some s
  | .add target type (some callback) once signal =>
    some (s.addEventListener target type callback once signal)
  | .remove _ _ none => some s
  | .remove target type (some callback) =>
    some (s.removeEventListener target type (.script callback) none)
  | .dispatch target event => s.dispatchEvent target event false
  | .stopImmediate event =>
    some { s with events := s.events.modify event fun e => { e with stopImmediate := true } }
  | .preventDefault event =>
    some { s with events := s.events.modify event fun e => { e with defaultPrevented := true } }
  | .setOnabort signal none => some { s with onabort := s.onabort.delete signal }
  | .setOnabort signal (some callback) => some { s with onabort := s.onabort.put signal callback }
  | .abort signal => s.abortSignal signal
  | .ret =>
    match s.stack with
    | .dispatch d :: below => do
      let entry ← d.entry
      some { s.finish d entry with stack := .dispatch { d with entry := none } :: below }
    | .onabort signal event :: below =>
      State.dispatchEvent { s with stack := below } signal event true
    | [] => none
  | .throw =>
    match s.stack with
    | .dispatch d :: below => some { s with stack := below, trace := s.trace ++ [.threw d.id] }
    | .onabort _ _ :: below => some { s with stack := below }
    | [] => none
  | .advance => none

def step (s : State F) (e : Step F) : Option (State F) :=
  if s.scriptRuns then scriptStep s e
  else
    match e, s.stack with
    | .advance, .dispatch d :: below => s.advance d below
    | _, _ => none

def machine : Machine (State F) (Step F) where
  init s := s = initial
  step := step

end QuickBeam.Web.EventTarget
