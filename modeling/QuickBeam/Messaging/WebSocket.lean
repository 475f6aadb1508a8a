import QuickBeam.Lib.Transition

/-!
# The WebSocket process (`web_socket.ex`)

One process serves one socket: it connects, upgrades the connection, and tells its owner what
happens in `events`.  What Mint answers is part of the input: a response that ends the upgrade
carries the result of `Mint.WebSocket.new`, one with data the decoded frames, and a ping the result
of sending the pong.  A callback that raises ends the process with what it has sent so far.

The process reports errors, closes and failed upgrades from many places; every one of them closes
first and stops then, so a process that goes on has not sent a close (`Live`).  The exception is an
error of the transport that comes with responses: the responses may have stopped the process
already, and the error is reported on top.  `Regular` leaves that out.
-/

namespace QuickBeam.Messaging.WebSocket

open QuickBeam.Lib

/-! ### Inputs -/

inductive Payload where
  | text (text : String)
  | binary (data : List UInt8)
deriving DecidableEq

/-- The reason of an error; `message` is `none` where it is no exception and
`Exception.message/1` raises. -/
structure Reason where
  message : Option String

/-- What `Mint.WebSocket.decode` gives. -/
inductive Frame where
  | text (text : String)
  | binary (data : List UInt8)
  | pong
  /-- With the error of sending the pong, if there is one. -/
  | ping (failure : Option Reason)
  | close (code : Option ℕ) (reason : Option String)
  /-- `{:error, reason}` in the place of a frame that is broken. -/
  | error

/-- Responses of Mint; `other` is one for another request. -/
inductive Response where
  | status (status : ℕ)
  | headers (headers : List (String × String))
  | done (failure : Option Reason)
  | data (frames : Except Reason (List Frame))
  | other

inductive Event where
  | connect (failure : Option Reason)
  /-- The owner is down. -/
  | down
  /-- A message for which `Mint.WebSocket.stream` gives responses, and maybe an error after them. -/
  | stream (responses : List Response) (failure : Option Reason)
  | unknown
  /-- `send` and `close` of the owner, with the error of sending the frame. -/
  | send (kind : String) (failure : Option Reason)
  | close (code : ℕ) (reason : String) (failure : Option Reason)

/-! ### The process -/

inductive OwnerEvent where
  | opened (protocol : String)
  | message (payload : Payload)
  | error (message : String)
  | close (code : ℕ) (reason : String) (wasClean : Bool)
deriving DecidableEq

/-- Why the process has stopped. -/
inductive Stop where
  | ownerDown
  | normal
  | error
  | raised
deriving DecidableEq

structure State where
  /-- `:connect` has been handled. -/
  started : Bool
  /-- `conn` and `websocket` are not nil. -/
  connected : Bool
  upgraded : Bool
  upgradeStatus : Option ℕ
  upgradeHeaders : List (String × String)
  protocol : String
  pendingClose : Option (ℕ × String)
  closed : Bool
  closeSent : Bool
  stopped : Option Stop
  events : List OwnerEvent
  /-- The payloads of all frames that were decoded. -/
  received : List Payload

def initial : State := ⟨false, false, false, none, [], "", none, false, false, none, [], []⟩

/-- How a callback or a part of it ends. -/
inductive Outcome where
  | ok (s : State)
  | stop (s : State)
  | raise (s : State)

namespace State

def emit (s : State) (event : OwnerEvent) : State := { s with events := s.events ++ [event] }

def emitClose (s : State) (code : ℕ) (reason : String) (wasClean : Bool) : State :=
  if s.closed then s else { s.emit (.close code reason wasClean) with closed := true }

/-- `emit_error_and_close/2`, which stops the process wherever it is called. -/
def emitErrorAndClose (s : State) (reason : Reason) : Outcome :=
  match reason.message with
  | some message => .stop ((s.emit (.error message)).emitClose 1006 "" false)
  | none => .raise s

def handleFrame (s : State) : Frame → Outcome
  | .text text => .ok (s.emit (.message (.text text)))
  | .binary data => .ok (s.emit (.message (.binary data)))
  | .pong => .ok s
  | .ping none => .ok s
  | .ping (some reason) => s.emitErrorAndClose reason
  | .close code reason =>
      .stop ({ s with closeSent := true }.emitClose (code.getD 1005) (reason.getD "") true)
  -- no clause
  | .error => .raise s

def handleFrames (s : State) : List Frame → Outcome
  | [] => .ok s
  | frame :: frames =>
      match s.handleFrame frame with
      | .ok s => s.handleFrames frames
      | outcome => outcome

def responseHeader (headers : List (String × String)) (name : String) : Option String :=
  (headers.find? fun (key, _) => key.toLower = name).map Prod.snd

def handleUpgradeSuccess (s : State) : Outcome :=
  let s := { s with upgraded := true, upgradeStatus := none }
  if s.pendingClose.isSome then
    .stop ({ s with pendingClose := none, upgradeHeaders := [] }.emitClose 1006 "" false)
  else
    let protocol := (responseHeader s.upgradeHeaders "sec-websocket-protocol").getD ""
    .ok ({ s with protocol, upgradeHeaders := [] }.emit (.opened protocol))

def handleResponse (s : State) : Response → Outcome
  | .status status => .ok { s with upgradeStatus := some status }
  | .headers headers => .ok { s with upgradeHeaders := s.upgradeHeaders ++ headers }
  | .done none => s.handleUpgradeSuccess
  | .done (some reason) => s.emitErrorAndClose reason
  | .data frames =>
      if s.upgraded then
        match frames with
        | .ok frames => s.handleFrames frames
        | .error reason => s.emitErrorAndClose reason
      else .ok s
  | .other => .ok s

def handleResponseList (s : State) : List Response → Outcome
  | [] => .ok s
  | response :: responses =>
      match s.handleResponse response with
      | .ok s => s.handleResponseList responses
      | outcome => outcome

/-- The end of a callback: `{:noreply, state}`, or `{:stop, reason, state}` with this reason. -/
def finish (why : Stop) : Outcome → State
  | .ok s => s
  | .stop s => { s with stopped := some why }
  | .raise s => { s with stopped := some .raised }

def handleConnect (s : State) : Option Reason → State
  | none => { s with started := true, connected := true }
  | some reason => finish .error ({ s with started := true }.emitErrorAndClose reason)

def handleStream (s : State) (responses : List Response) (failure : Option Reason) : State :=
  if ¬ s.connected then s
  else
    match failure with
    | none => finish .normal (s.handleResponseList responses)
    | some reason =>
        match s.handleResponseList responses with
        | .raise s => finish .error (.raise s)
        -- `{:ok, state}` and `{:stop, state}` alike
        | .ok s | .stop s => finish .error (s.emitErrorAndClose reason)

/-- The end of a request that sends a frame. -/
def sent (s : State) : Option Reason → State
  | none => s
  | some reason => finish .error (s.emitErrorAndClose reason)

def handleSend (s : State) (kind : String) (failure : Option Reason) : State :=
  if ¬ s.upgraded then s
  else if kind = "text" ∨ kind = "binary" then s.sent failure
  else finish .error (.raise s)

def handleClose (s : State) (code : ℕ) (reason : String) (failure : Option Reason) : State :=
  if s.closed then s
  else if ¬ s.upgraded then { s with pendingClose := some (code, reason) }
  else
    match failure with
    | none => { s with closeSent := true }
    | some error => s.sent (some error)

end State

def Frame.payload : Frame → Option Payload
  | .text t => some (.text t)
  | .binary d => some (.binary d)
  | _ => none

def Response.payloads : Response → List Payload
  | .data (.ok frames) => frames.filterMap Frame.payload
  | _ => []

def Event.payloads : Event → List Payload
  | .stream responses _ => responses.flatMap Response.payloads
  | _ => []

/-- The callback for a message or a request; `:connect` comes once. -/
def State.handle (s : State) : Event → Option State
  | .connect failure => if s.started then none else some (s.handleConnect failure)
  | .down => some { s with stopped := some .ownerDown }
  | .stream responses failure => some (s.handleStream responses failure)
  | .unknown => some s
  | .send kind failure => some (s.handleSend kind failure)
  | .close code reason failure => some (s.handleClose code reason failure)

def step (s : State) (event : Event) : Option State :=
  if s.stopped.isSome then none
  else
    (s.handle event).map fun s' => { s' with received := s.received ++ event.payloads }

def machine : Machine State Event where
  init s := s = initial
  step := step

/-! ### The protocol -/

/-- What the owner knows of a socket. -/
inductive Phase where
  | connecting
  | opened
  | failed
  | closed
deriving DecidableEq

/-- The runs of the protocol: an open, then messages; an error is followed by the close, and
nothing follows the close. -/
def Phase.next : Phase → OwnerEvent → Option Phase
  | .connecting, .opened _ => some .opened
  | .opened, .message _ => some .opened
  | .connecting, .error _ | .opened, .error _ => some .failed
  | .connecting, .close _ _ _ | .opened, .close _ _ _ | .failed, .close _ _ _ => some .closed
  | _, _ => none

def phaseOf (events : List OwnerEvent) : Option Phase := events.foldlM Phase.next .connecting

theorem phaseOf_append (events : List OwnerEvent) (event : OwnerEvent) :
    phaseOf (events ++ [event]) = (phaseOf events).bind fun phase => phase.next event := by
  unfold phaseOf
  rw [List.foldlM_append]
  congr 1
  funext phase
  simp

def OwnerEvent.payload : OwnerEvent → Option Payload
  | .message p => some p
  | _ => none

def messages (s : State) : List Payload := s.events.filterMap OwnerEvent.payload

/-- The process is at work: it has opened the socket if it has upgraded the connection. -/
structure Live (s : State) : Prop where
  closed : s.closed = false
  phase : phaseOf s.events = some (if s.upgraded then .opened else .connecting)

structure Ended (s : State) : Prop where
  closed : s.closed = true
  phase : phaseOf s.events = some .closed

/-- The messages sent between two states are some of the payloads, in their order. -/
def Adds (s s' : State) (payloads : List Payload) : Prop :=
  ∃ sent, List.Sublist sent payloads ∧ messages s' = messages s ++ sent

theorem Adds.none {s s' : State} (h : messages s' = messages s) (payloads : List Payload) :
    Adds s s' payloads := ⟨[], List.nil_sublist _, by rw [h, List.append_nil]⟩

theorem Adds.trans {a b c : State} {p q : List Payload} (hab : Adds a b p) (hbc : Adds b c q) :
    Adds a c (p ++ q) := by
  obtain ⟨x, hx, hb⟩ := hab
  obtain ⟨y, hy, hc⟩ := hbc
  exact ⟨x ++ y, hx.append hy, by rw [hc, hb, List.append_assoc]⟩

/-! ### Regular inputs -/

/-- What becomes of a process; `fails` stands for a callback that raises and for a second open. -/
inductive Course where
  | goesOn
  | stops
  | fails
deriving DecidableEq

def Reason.course (reason : Reason) : Course := if reason.message.isSome then .stops else .fails

def framesCourse : List Frame → Course
  | [] => .goesOn
  | .ping (some reason) :: _ => reason.course
  | .close _ _ :: _ => .stops
  | .error :: _ => .fails
  | _ :: frames => framesCourse frames

def dataCourse : Except Reason (List Frame) → Course
  | .ok frames => framesCourse frames
  | .error reason => reason.course

/-- The course of a response: with the upgrade of the connection data are decoded, and a close that
was asked for ends the socket. -/
def responseCourse (upgraded pendingClose : Bool) : Response → Course
  | .done none => if upgraded then .fails else if pendingClose then .stops else .goesOn
  | .done (some reason) => reason.course
  | .data frames => if upgraded then dataCourse frames else .goesOn
  | _ => .goesOn

def Response.upgrades : Response → Bool
  | .done none => true
  | _ => false

def course (upgraded pendingClose : Bool) : List Response → Course
  | [] => .goesOn
  | response :: responses =>
      match responseCourse upgraded pendingClose response with
      | .goesOn => course (upgraded || response.upgrades) pendingClose responses
      | other => other

def Printable (failure : Option Reason) : Prop := ∀ reason ∈ failure, reason.course = .stops

/-- The condition on a run: a connection is upgraded once, what fails can be reported, frames are
not broken, and an error of the transport does not come with responses that end the socket. -/
def Regular (s : State) : Event → Prop
  | .connect failure => Printable failure
  | .stream responses failure => s.connected = true →
      match failure with
      | none => course s.upgraded s.pendingClose.isSome responses ≠ .fails
      | some reason =>
          course s.upgraded s.pendingClose.isSome responses = .goesOn ∧ reason.course = .stops
  | .send kind failure => s.upgraded = true → (kind = "text" ∨ kind = "binary") ∧ Printable failure
  | .close _ _ failure => s.upgraded = true → Printable failure
  | _ => True

/-! ### Responses -/

/-- An outcome with its course; `upgrades` says that the connection may have been upgraded. -/
inductive Result (s : State) (payloads : List Payload) (upgrades : Bool) : Course → Outcome → Prop
  | ok {s' : State} (live : Live s') (stopped : s'.stopped = s.stopped)
      (pending : s'.pendingClose = s.pendingClose)
      (upgraded : s'.upgraded = (s.upgraded || upgrades)) (adds : Adds s s' payloads) :
      Result s payloads upgrades .goesOn (.ok s')
  | stop {s' : State} (ended : Ended s') (adds : Adds s s' payloads) :
      Result s payloads upgrades .stops (.stop s')

variable {c : Course} {outcome : Outcome}

theorem Result.trans {s m : State} {p q : List Payload} {up upgrades : Bool} (hadds : Adds s m p)
    (hstopped : m.stopped = s.stopped) (hpending : m.pendingClose = s.pendingClose)
    (hupgraded : m.upgraded = (s.upgraded || up)) (h : Result m q upgrades c outcome) :
    Result s (p ++ q) (up || upgrades) c outcome := by
  cases h with
  | ok live stopped pending upgraded adds =>
    refine .ok live (stopped.trans hstopped) (pending.trans hpending) ?_ (hadds.trans adds)
    rw [upgraded, hupgraded, Bool.or_assoc]
  | stop ended adds => exact .stop ended (hadds.trans adds)

variable {s : State}

/-- **A close ends the run of events.** -/
theorem Live.emitClose (h : Live s) (code : ℕ) (reason : String) (wasClean : Bool) :
    Ended (s.emitClose code reason wasClean) ∧
      ∀ payloads, Adds s (s.emitClose code reason wasClean) payloads := by
  unfold State.emitClose
  rw [if_neg (by simp [h.closed])]
  refine ⟨⟨rfl, ?_⟩, fun payloads => .none ?_ payloads⟩
  · show phaseOf (s.events ++ [_]) = _
    rw [phaseOf_append, h.phase]
    cases s.upgraded <;> rfl
  · simp [messages, State.emit, OwnerEvent.payload]

variable {reason : Reason}

/-- **An error is reported with the close.** -/
theorem Live.emitErrorAndClose (h : Live s) (hreason : reason.course ≠ .fails) :
    ∃ s', s.emitErrorAndClose reason = .stop s' ∧
      reason.course = .stops ∧ Ended s' ∧ ∀ payloads, Adds s s' payloads := by
  unfold Reason.course at hreason ⊢
  unfold State.emitErrorAndClose
  cases hmessage : reason.message with
  | none => simp [hmessage] at hreason
  | some message =>
    have hopen : (s.emit (.error message)).closed = false := h.closed
    refine ⟨_, rfl, rfl, ?_⟩
    unfold State.emitClose
    rw [if_neg (by simp [hopen])]
    refine ⟨⟨rfl, ?_⟩, fun payloads => .none ?_ payloads⟩
    · show phaseOf (s.events ++ [_] ++ [_]) = _
      rw [phaseOf_append, phaseOf_append, h.phase]
      cases s.upgraded <;> rfl
    · simp [messages, State.emit, OwnerEvent.payload]

theorem Live.emitMessage (h : Live s) (hupgraded : s.upgraded = true) (payload : Payload) :
    Live (s.emit (.message payload)) ∧
      Adds s (s.emit (.message payload)) [payload] := by
  refine ⟨⟨h.closed, ?_⟩, ⟨[payload], List.Sublist.refl _, ?_⟩⟩
  · show phaseOf (s.events ++ [_]) = some (if s.upgraded then _ else _)
    rw [phaseOf_append, h.phase, hupgraded]
    rfl
  · simp [messages, State.emit, OwnerEvent.payload]

theorem handleFrames_result (frames : List Frame) : ∀ {s : State}, Live s → s.upgraded = true →
    framesCourse frames ≠ .fails →
      Result s (frames.filterMap Frame.payload) false (framesCourse frames)
        (s.handleFrames frames) := by
  induction frames with
  | nil =>
    intro s h _ _
    exact .ok h rfl rfl (Bool.or_false _).symm (.none rfl _)
  | cons frame frames ih =>
    intro s h hupgraded hcourse
    cases frame with
    | text text =>
      obtain ⟨hlive, hadds⟩ := h.emitMessage hupgraded (.text text)
      exact .trans hadds rfl rfl (Bool.or_false _).symm (ih hlive hupgraded hcourse)
    | binary data =>
      obtain ⟨hlive, hadds⟩ := h.emitMessage hupgraded (.binary data)
      exact .trans hadds rfl rfl (Bool.or_false _).symm (ih hlive hupgraded hcourse)
    | pong => exact ih h hupgraded hcourse
    | ping failure =>
      cases failure with
      | none => exact ih h hupgraded hcourse
      | some reason =>
        obtain ⟨s', heq, hstops, hended, hadds⟩ := h.emitErrorAndClose hcourse
        simp only [State.handleFrames, State.handleFrame, framesCourse, heq, hstops]
        exact .stop hended (hadds _)
    | close code reason =>
      have hlive : Live { s with closeSent := true } := ⟨h.closed, h.phase⟩
      obtain ⟨hended, hadds⟩ := hlive.emitClose (code.getD 1005) (reason.getD "") true
      exact .stop hended (hadds _)
    | error => exact absurd rfl hcourse

/-- The upgrade of a connection that is not upgraded yet: an open, unless a close was asked for. -/
theorem handleUpgradeSuccess_result (h : Live s) (hupgraded : s.upgraded = false) :
    Result s [] true (if s.pendingClose.isSome then .stops else .goesOn) s.handleUpgradeSuccess := by
  have hphase := h.phase
  rw [hupgraded] at hphase
  unfold State.handleUpgradeSuccess
  cases hpending : s.pendingClose with
  | some request =>
    have hclosed : s.closed = false := h.closed
    simp only [Option.isSome_some, if_true, State.emitClose, hclosed]
    refine .stop ⟨rfl, ?_⟩ (.none ?_ _)
    · show phaseOf (s.events ++ [_]) = _
      rw [phaseOf_append, hphase]
      rfl
    · simp [messages, State.emit, OwnerEvent.payload]
  | none =>
    simp only [Option.isSome_none]
    refine .ok ⟨h.closed, ?_⟩ rfl hpending.symm (Bool.or_true _).symm (.none ?_ _)
    · show phaseOf (s.events ++ [_]) = some .opened
      rw [phaseOf_append, hphase]
      rfl
    · simp [messages, State.emit, OwnerEvent.payload]

theorem handleResponse_result (h : Live s) (response : Response)
    (hcourse : responseCourse s.upgraded s.pendingClose.isSome response ≠ .fails) :
    Result s response.payloads response.upgrades
      (responseCourse s.upgraded s.pendingClose.isSome response) (s.handleResponse response) := by
  cases response with
  | status status => exact .ok ⟨h.closed, h.phase⟩ rfl rfl (Bool.or_false _).symm (.none rfl _)
  | headers headers => exact .ok ⟨h.closed, h.phase⟩ rfl rfl (Bool.or_false _).symm (.none rfl _)
  | other => exact .ok h rfl rfl (Bool.or_false _).symm (.none rfl _)
  | done failure =>
    cases failure with
    | some reason =>
      obtain ⟨s', heq, hstops, hended, hadds⟩ := h.emitErrorAndClose hcourse
      simp only [State.handleResponse, responseCourse, heq, hstops]
      exact .stop hended (hadds _)
    | none =>
      cases hupgraded : s.upgraded with
      | true => simp [responseCourse, hupgraded] at hcourse
      | false => exact handleUpgradeSuccess_result h hupgraded
  | data frames =>
    cases hupgraded : s.upgraded with
    | false =>
      simp only [State.handleResponse, responseCourse, hupgraded]
      exact .ok h rfl rfl (Bool.or_false _).symm (.none rfl _)
    | true =>
      simp only [responseCourse, hupgraded, if_true] at hcourse
      simp only [State.handleResponse, responseCourse, hupgraded, if_true]
      cases frames with
      | ok frames => exact handleFrames_result frames h hupgraded hcourse
      | error reason =>
        obtain ⟨s', heq, hstops, hended, hadds⟩ := h.emitErrorAndClose hcourse
        simp only [dataCourse, heq, hstops]
        exact .stop hended (hadds _)

/-- **A list of responses**: it goes on, or it has closed the socket. -/
theorem handleResponseList_result (responses : List Response) : ∀ {s : State}, Live s →
    course s.upgraded s.pendingClose.isSome responses ≠ .fails →
      ∃ upgrades, Result s (responses.flatMap Response.payloads) upgrades
        (course s.upgraded s.pendingClose.isSome responses) (s.handleResponseList responses) := by
  induction responses with
  | nil =>
    intro s h _
    exact ⟨false, .ok h rfl rfl (Bool.or_false _).symm (.none rfl _)⟩
  | cons response responses ih =>
    intro s h hcourse
    have hfirst : responseCourse s.upgraded s.pendingClose.isSome response ≠ .fails := by
      intro hfails
      simp [course, hfails] at hcourse
    have hresult := handleResponse_result h response hfirst
    rw [List.flatMap_cons]
    simp only [course, State.handleResponseList] at hcourse ⊢
    revert hresult hcourse
    generalize responseCourse s.upgraded s.pendingClose.isSome response = c
    generalize s.handleResponse response = outcome
    intro hcourse hresult
    cases hresult with
    | @ok m live stopped pending upgraded adds =>
      rw [← upgraded, ← pending] at hcourse ⊢
      obtain ⟨upgrades, hrest⟩ := ih live hcourse
      exact ⟨_, .trans adds stopped pending upgraded hrest⟩
    | stop ended adds => exact ⟨false, .stop ended (adds.trans (.none rfl _))⟩

/-! ### Runs -/

structure Invariant (s : State) : Prop where
  live : s.stopped = none ∨ s.stopped = some .ownerDown → Live s
  closed : ∀ why, s.stopped = some why → why ≠ .ownerDown → phaseOf s.events = some .closed
  messages : List.Sublist (messages s) s.received

theorem Invariant.of_result {payloads : List Payload} {upgrades : Bool} {why : Stop}
    (h : Invariant s) (hrunning : s.stopped = none) (hwhy : why ≠ .ownerDown)
    (hresult : Result s payloads upgrades c outcome) :
    Invariant { State.finish why outcome with received := s.received ++ payloads } := by
  have hmessages : ∀ {s' : State}, Adds s s' payloads →
      List.Sublist (s'.events.filterMap OwnerEvent.payload) (s.received ++ payloads) := by
    intro s' hadds
    obtain ⟨sent, hsub, heq⟩ := hadds
    show List.Sublist (WebSocket.messages s') _
    rw [heq]
    exact h.messages.append hsub
  cases hresult with
  | @ok s' live stopped pending upgraded adds =>
    have hnone : s'.stopped = none := stopped.trans hrunning
    refine ⟨fun _ => ⟨live.closed, live.phase⟩, fun why hsome => ?_, hmessages adds⟩
    have hsome' : s'.stopped = some why := hsome
    rw [hnone] at hsome'
    cases hsome'
  | @stop s' ended adds =>
    refine ⟨fun hnot => ?_, fun _ _ _ => ended.phase, hmessages adds⟩
    have hnot' : some why = none ∨ some why = some .ownerDown := hnot
    rcases hnot' with hnone | hdown
    · cases hnone
    · cases hdown
      exact absurd rfl hwhy

theorem Invariant.same {s s' : State} (h : Invariant s) (payloads : List Payload)
    (hlive : Live s → Live s') (hstopped : s'.stopped = s.stopped) (hevents : s'.events = s.events)
    (hreceived : s'.received = s.received ++ payloads) : Invariant s' where
  live hs := hlive (h.live (hstopped ▸ hs))
  closed why hsome hne := by
    rw [hevents]
    exact h.closed why (hstopped ▸ hsome) hne
  messages := by
    rw [WebSocket.messages, hevents, hreceived]
    exact h.messages.trans (List.sublist_append_left _ _)

theorem Live.error_result (h : Live s) (hreason : reason.course ≠ .fails)
    (payloads : List Payload) : Result s payloads false .stops (s.emitErrorAndClose reason) := by
  obtain ⟨s', heq, -, hended, hadds⟩ := h.emitErrorAndClose hreason
  rw [heq]
  exact .stop hended (hadds payloads)

theorem handle_invariant {s s' : State} {event : Event} (h : Invariant s)
    (hrunning : s.stopped = none) (hregular : Regular s event) (hs' : s.handle event = some s') :
    Invariant { s' with received := s.received ++ event.payloads } := by
  have hlive : Live s := h.live (.inl hrunning)
  cases event with
  | connect failure =>
    simp only [State.handle] at hs'
    split at hs'
    case isTrue => cases hs'
    case isFalse =>
      cases hs'
      cases failure with
      | none => exact h.same [] (fun _ => ⟨hlive.closed, hlive.phase⟩) rfl rfl rfl
      | some reason =>
        have hstarted : Live { s with started := true } := ⟨hlive.closed, hlive.phase⟩
        have hinv : Invariant { s with started := true } :=
          ⟨fun _ => hstarted, h.closed, h.messages⟩
        exact hinv.of_result hrunning (by decide)
          (hstarted.error_result (by rw [hregular reason rfl]; decide) [])
  | down =>
    cases hs'
    refine ⟨fun _ => ⟨hlive.closed, hlive.phase⟩, fun why hsome hne => ?_, ?_⟩
    · cases hsome
      exact absurd rfl hne
    · exact h.messages.trans (List.sublist_append_left _ _)
  | unknown =>
    cases hs'
    exact h.same [] (fun _ => ⟨hlive.closed, hlive.phase⟩) rfl rfl rfl
  | stream responses failure =>
    cases hs'
    unfold State.handleStream
    by_cases hconnected : s.connected = true
    · rw [if_neg (not_not_intro hconnected)]
      cases failure with
      | none =>
        obtain ⟨upgrades, hresult⟩ := handleResponseList_result responses hlive (hregular hconnected)
        exact h.of_result hrunning (by decide) hresult
      | some reason =>
        obtain ⟨hgoes, hreason⟩ := hregular hconnected
        obtain ⟨upgrades, hresult⟩ := handleResponseList_result responses hlive
          (by rw [hgoes]; decide)
        rw [hgoes] at hresult
        -- the responses leave the process at work, and the error ends it
        revert hresult
        generalize s.handleResponseList responses = outcome
        intro hresult
        cases hresult with
        | @ok m live stopped pending upgraded adds =>
          have herror := live.error_result (by rw [hreason]; decide : reason.course ≠ .fails) []
          have hboth := Result.trans adds stopped pending upgraded herror
          rw [List.append_nil] at hboth
          exact h.of_result hrunning (by decide) hboth
    · rw [if_pos hconnected]
      exact h.same _ (fun _ => ⟨hlive.closed, hlive.phase⟩) rfl rfl rfl
  | send kind failure =>
    cases hs'
    unfold State.handleSend
    by_cases hupgraded : s.upgraded = true
    · obtain ⟨hkind, hprintable⟩ := hregular hupgraded
      rw [if_neg (not_not_intro hupgraded), if_pos hkind]
      cases failure with
      | none => exact h.same [] (fun _ => ⟨hlive.closed, hlive.phase⟩) rfl rfl rfl
      | some reason =>
        exact h.of_result hrunning (by decide)
          (hlive.error_result (by rw [hprintable reason rfl]; decide) [])
    · rw [if_pos hupgraded]
      exact h.same [] (fun _ => ⟨hlive.closed, hlive.phase⟩) rfl rfl rfl
  | close code reason failure =>
    cases hs'
    unfold State.handleClose
    rw [if_neg (by simp [hlive.closed])]
    by_cases hupgraded : s.upgraded = true
    · rw [if_neg (not_not_intro hupgraded)]
      cases failure with
      | none => exact h.same [] (fun _ => ⟨hlive.closed, hlive.phase⟩) rfl rfl rfl
      | some error =>
        exact h.of_result hrunning (by decide)
          (hlive.error_result (by rw [hregular hupgraded error rfl]; decide) [])
    · rw [if_pos hupgraded]
      exact h.same [] (fun _ => ⟨hlive.closed, hlive.phase⟩) rfl rfl rfl

/-- What the owner sees: a run of the protocol, closed when the process has stopped on its own, with
the messages in the order of the frames. -/
structure Protocol (s : State) : Prop where
  run : ∃ phase, phaseOf s.events = some phase ∧ phase ≠ .failed
  closes : ∀ why, s.stopped = some why → why ≠ .ownerDown → phaseOf s.events = some .closed
  inOrder : List.Sublist (messages s) s.received

theorem Invariant.protocol (h : Invariant s) : Protocol s := by
  refine ⟨?_, h.closed, h.messages⟩
  by_cases hwhy : s.stopped = none ∨ s.stopped = some .ownerDown
  · refine ⟨_, (h.live hwhy).phase, ?_⟩
    split <;> decide
  · obtain ⟨hnone, hdown⟩ := not_or.1 hwhy
    obtain ⟨why, hsome⟩ := Option.ne_none_iff_exists'.1 hnone
    refine ⟨.closed, h.closed why hsome ?_, by decide⟩
    rintro rfl
    exact hdown hsome

/-- **The owner sees a run of the protocol**, in every run with regular inputs. -/
theorem events_protocol (s : State) (h : machine.ReachableIf Regular s) : Protocol s := by
  refine Invariant.protocol (Machine.ReachableIf.invariant ?_ ?_ h)
  · rintro s rfl
    exact ⟨fun _ => ⟨rfl, rfl⟩, (fun why hsome => by cases hsome), List.Sublist.refl _⟩
  · intro s event s' hinv hregular hstep
    unfold machine step at hstep
    simp only at hstep
    split at hstep
    case isTrue => cases hstep
    case isFalse hstopped =>
      obtain ⟨m, hm, rfl⟩ := Option.map_eq_some_iff.1 hstep
      exact handle_invariant hinv (by simpa using hstopped) hregular hm

/-- An upgrade with a first message, and the close of the server. -/
def sampleRun : List Event :=
  [.connect none, .stream [.status 101, .done none, .data (.ok [.text "hi"])] none,
    .stream [.data (.ok [.ping none, .close (some 1000) none])] none]

theorem events_protocol_sampleRun : ∃ s, machine.exec initial sampleRun = some s ∧
    s.events = [.opened "", .message (.text "hi"), .close 1000 "" true] ∧ Protocol s := by
  refine ⟨_, rfl, rfl, events_protocol _ ⟨initial, sampleRun, rfl, ?_⟩⟩
  refine .cons ?_ rfl <| .cons ?_ rfl <| .cons ?_ rfl <| .nil _
  · exact nofun
  · intro _
    decide
  · intro _
    decide

/-- A close frame and an error of the transport in one batch: the error comes after the close. -/
theorem error_after_close : ¬ ∀ s, machine.Reachable s → Protocol s := by
  intro h
  have hrun : machine.exec initial [.connect none, .stream [.done none] none,
      .stream [.data (.ok [.close none none])] (some ⟨some "closed"⟩)] = some _ := rfl
  obtain ⟨phase, hphase, -⟩ := (h _ (Machine.reachable_of_exec rfl hrun)).run
  have hnone : phaseOf [.opened "", .close 1005 "" true, .error "closed"] = some phase := hphase
  cases hnone

end QuickBeam.Messaging.WebSocket
