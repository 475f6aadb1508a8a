import QuickBeam.Lib.GenServer
import QuickBeam.Lib.Transition
import Mathlib.Logic.Function.Basic

/-!
# Side effects through host calls (`websocket.ts`, `broadcast-channel.ts`, `runtime.ex`)

`WebSocket.send`, `WebSocket.close` and `BroadcastChannel.postMessage` are host calls that nobody
awaits.  The runtime process starts a task for each call, and the task hands on by a message: to
the runtime itself, which casts to the socket's process, or to every member of the channel, which
starts a task of its own that puts a call of the dispatch function into the native queue.

A node is a runtime with its sockets, which are open.  `calls` has the host calls that its program
has made, `written` the frames of a socket and `seen` the posts dispatched to its listeners.
Messages are of any type.
-/

namespace QuickBeam.Native

open QuickBeam.Lib

variable {α : Type}

/-! ### Calls and messages -/

inductive Call (α : Type) where
  | send (socket : ℕ) (payload : α)
  | close (socket : ℕ) (code : ℕ) (reason : String)
  | post (channel : String) (message : α)

inductive Lane where
  | socket (id : ℕ)
  | channel (name : String)
deriving DecidableEq

def Call.lane : Call α → Lane
  | .send socket _ => .socket socket
  | .close socket _ _ => .socket socket
  | .post channel _ => .channel channel

def Call.isClose : Call α → Bool
  | .close _ _ _ => true
  | _ => false

/-- `{:broadcast_message, channel, message}` of a sender. -/
structure Post (α : Type) where
  sender : Pid
  channel : String
  message : α

/-- `{:ws_send, …}`, `{:ws_close, …}` or `{:broadcast_message, …}`. -/
inductive Relay (α : Type) where
  | ws (call : Call α)
  | broadcast (post : Post α)

/-- A handler's task, with the members that its post is still to be sent to. -/
structure Task (α : Type) where
  call : Call α
  targets : Option (List Pid)

structure Node (α : Type) where
  /-- The sockets whose `readyState` is `CLOSING`. -/
  closing : List ℕ
  calls : List (Call α)
  /-- `{:beam_call, …}` messages. -/
  requests : List (Call α)
  tasks : List (Task α)
  mailbox : List (Relay α)
  /-- Tasks that are about to call the dispatch function. -/
  dispatches : List (Post α)
  /-- Calls of the dispatch function in the native queue. -/
  queue : List (Post α)
  seen : List (Post α)
  casts : ℕ → List (Call α)
  written : ℕ → List (Call α)

structure System (α : Type) where
  nodes : Pid → Node α
  /-- `:pg.get_members`. -/
  members : String → List Pid
  /-- For each member, the calls that the runtimes had made when it joined. -/
  joined : String → Pid → Option (Pid → List (Call α))

namespace Node

def initial : Node α := ⟨[], [], [], [], [], [], [], [], fun _ => [], fun _ => []⟩

/-! ### Steps of a node -/

/-- The host call of a program; a closing socket makes none. -/
def makeCall (n : Node α) (call : Call α) : Node α :=
  let made := { n with calls := n.calls ++ [call], requests := n.requests ++ [call] }
  match call with
  | .send socket _ => if socket ∈ n.closing then n else made
  | .close socket _ _ =>
    if socket ∈ n.closing then n else { made with closing := socket :: n.closing }
  | .post _ _ => made

/-- `handle_info({:beam_call, …})`. -/
def dispatch (n : Node α) : Option (Node α) :=
  match n.requests with
  | [] => none
  | call :: requests => some { n with requests, tasks := n.tasks ++ [⟨call, none⟩] }

def handle (n : Node α) : Option (Node α) :=
  match n.mailbox with
  | [] => none
  | .ws call :: mailbox =>
    match call.lane with
    | .socket socket =>
      some { n with
        mailbox
        casts := Function.update n.casts socket (n.casts socket ++ [call]) }
    | .channel _ => some { n with mailbox }
  | .broadcast post :: mailbox => some { n with mailbox, dispatches := n.dispatches ++ [post] }

/-- The process of a socket writes a frame. -/
def write (n : Node α) (socket : ℕ) : Option (Node α) :=
  match n.casts socket with
  | [] => none
  | call :: casts =>
    some { n with
      casts := Function.update n.casts socket casts
      written := Function.update n.written socket (n.written socket ++ [call]) }

/-- A task puts its call of the dispatch function into the native queue. -/
def start (n : Node α) (i : ℕ) : Option (Node α) :=
  match n.dispatches[i]? with
  | none => none
  | some post =>
    some { n with
      dispatches := n.dispatches.take i ++ n.dispatches.drop (i + 1)
      queue := n.queue ++ [post] }

/-- The main loop of the worker dispatches a post. -/
def take (n : Node α) : Option (Node α) :=
  match n.queue with
  | [] => none
  | post :: queue => some { n with queue, seen := n.seen ++ [post] }

def drop (n : Node α) : Option (Node α) :=
  match n.queue with
  | [] => none
  | _ :: queue => some { n with queue }

def setTask (n : Node α) (i : ℕ) (tasks : List (Task α)) : Node α :=
  { n with tasks := n.tasks.take i ++ tasks ++ n.tasks.drop (i + 1) }

def receive (n : Node α) (message : Relay α) : Node α :=
  { n with mailbox := n.mailbox ++ [message] }

end Node

namespace System

def modify (s : System α) (p : Pid) (f : Node α → Node α) : System α :=
  { s with nodes := Function.update s.nodes p (f (s.nodes p)) }

@[simp] theorem modify_self (s : System α) (p : Pid) (f : Node α → Node α) :
    (s.modify p f).nodes p = f (s.nodes p) := Function.update_self ..

@[simp] theorem modify_of_ne (s : System α) {p q : Pid} (h : q ≠ p) (f : Node α → Node α) :
    (s.modify p f).nodes q = s.nodes q := Function.update_of_ne h ..

/-! ### Steps -/

/-- A task that has somebody left to send to. -/
def taskOf (call : Call α) : List Pid → List (Task α)
  | [] => []
  | target :: targets => [⟨call, some (target :: targets)⟩]

def getMembers (s : System α) (p : Pid) (i : ℕ) : Option (System α) :=
  match (s.nodes p).tasks[i]? with
  | some ⟨.post channel message, none⟩ =>
    let targets := (s.members channel).filter (· ≠ p)
    some (s.modify p fun n => n.setTask i (taskOf (.post channel message) targets))
  | _ => none

def run (s : System α) (p : Pid) (i : ℕ) : Option (System α) :=
  match (s.nodes p).tasks[i]? with
  | some ⟨.post channel message, some (target :: targets)⟩ =>
    let s := s.modify p fun n => n.setTask i (taskOf (.post channel message) targets)
    some (s.modify target fun n => n.receive (.broadcast ⟨p, channel, message⟩))
  | some ⟨.post _ _, _⟩ => none
  | some ⟨call, _⟩ => some (s.modify p fun n => (n.setTask i []).receive (.ws call))
  | none => none

inductive Event (α : Type) where
  | call (p : Pid) (call : Call α)
  | dispatch (p : Pid)
  | getMembers (p : Pid) (i : ℕ)
  | run (p : Pid) (i : ℕ)
  | handle (p : Pid)
  | write (p : Pid) (socket : ℕ)
  | start (p : Pid) (i : ℕ)
  | take (p : Pid)
  | drop (p : Pid)
  | join (p : Pid) (channel : String)
  | leave (p : Pid) (channel : String)

def step (s : System α) : Event α → Option (System α)
  | .call p call => some (s.modify p fun n => n.makeCall call)
  | .dispatch p => (s.nodes p).dispatch.map fun n => s.modify p fun _ => n
  | .getMembers p i => s.getMembers p i
  | .run p i => s.run p i
  | .handle p => (s.nodes p).handle.map fun n => s.modify p fun _ => n
  | .write p socket => ((s.nodes p).write socket).map fun n => s.modify p fun _ => n
  | .start p i => ((s.nodes p).start i).map fun n => s.modify p fun _ => n
  | .take p => (s.nodes p).take.map fun n => s.modify p fun _ => n
  | .drop p => (s.nodes p).drop.map fun n => s.modify p fun _ => n
  | .join p channel =>
    let before := (s.joined channel p).getD fun q => (s.nodes q).calls
    some { s with
      members := Function.update s.members channel (p :: s.members channel)
      joined := Function.update s.joined channel
        (Function.update (s.joined channel) p (some before)) }
  | .leave p channel =>
    let members := (s.members channel).erase p
    some { s with
      members := Function.update s.members channel members
      joined :=
        if p ∈ members then s.joined
        else Function.update s.joined channel (Function.update (s.joined channel) p none) }

def initial (members : String → List Pid) : System α where
  nodes _ := .initial
  members
  joined channel p := if p ∈ members channel then some fun _ => [] else none

/-- Programs start with any members of the channels. -/
def machine : Machine (System α) (Event α) where
  init s := ∃ members, s = initial members
  step := step

end System

end QuickBeam.Native
