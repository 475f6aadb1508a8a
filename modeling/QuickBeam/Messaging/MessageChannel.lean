import QuickBeam.Lib.Transition

/-!
# `MessageChannel` (`message-channel.ts`)

A message goes from `postMessage` to the other port in a microtask.  If that port has not been
started the message waits in its queue, and `start` sends what waits through another microtask.
Microtasks run in the order they were queued.  A handler is ordinary code: what it does with the
ports are further steps before the next microtask.

`posted` has the clones made for a port, in the order of the posts, and `dispatched` the data of
its message events.  A start puts the waiting messages behind the microtasks that are there already,
so a message on its way overtakes them; the results are about runs in which no message is on its
way when waiting messages are started (`Settled`).
-/

namespace QuickBeam.Messaging.MessageChannel

open QuickBeam.Lib

/-! ### Ports -/

inductive Side where
  | port1 | port2
deriving DecidableEq

def Side.remote : Side → Side
  | .port1 => .port2
  | .port2 => .port1

variable {α : Type}

structure MessagePort (α : Type) where
  closed : Bool
  started : Bool
  queue : List α
  posted : List α
  dispatched : List α

/-- `() => remote._deliver(cloned)` and `() => this._dispatch(data)`. -/
inductive Microtask (α : Type) where
  | deliver (port : Side) (data : α)
  | dispatch (port : Side) (data : α)

namespace Microtask

def port : Microtask α → Side
  | .deliver port _ => port
  | .dispatch port _ => port

def data : Microtask α → α
  | .deliver _ data => data
  | .dispatch _ data => data

def isDeliver : Microtask α → Bool
  | .deliver _ _ => true
  | .dispatch _ _ => false

end Microtask

/-- The objects of the program are in `objects`; a message is posted as one of them. -/
structure State (α : Type) where
  ports : Side → MessagePort α
  microtasks : List (Microtask α)
  objects : ℕ → α

inductive Event (α : Type) where
  /-- The program writes to an object. -/
  | write (object : ℕ) (value : α)
  | postMessage (port : Side) (object : ℕ)
  | start (port : Side)
  /-- An assignment to `onmessage`. -/
  | setOnmessage (port : Side) (null : Bool)
  | close (port : Side)
  /-- The next microtask. -/
  | microtask

namespace State

def setPort (s : State α) (side : Side) (port : MessagePort α) : State α :=
  { s with ports := Function.update s.ports side port }

@[simp] theorem setPort_self (s : State α) (side : Side) (port : MessagePort α) :
    (s.setPort side port).ports side = port := Function.update_self ..

theorem setPort_ne (s : State α) {side other : Side} (port : MessagePort α) (h : other ≠ side) :
    (s.setPort side port).ports other = s.ports other := Function.update_of_ne h ..

@[simp] theorem setPort_microtasks (s : State α) (side : Side) (port : MessagePort α) :
    (s.setPort side port).microtasks = s.microtasks := rfl

/-- `structuredClone` may throw, and then nothing is posted. -/
def postMessage (structuredClone : α → Option α) (s : State α) (side : Side) (object : ℕ) :
    State α :=
  let remote := s.ports side.remote
  if (s.ports side).closed then s
  else if remote.closed then s
  else
    match structuredClone (s.objects object) with
    | none => s
    | some cloned =>
        { s.setPort side.remote { remote with posted := remote.posted ++ [cloned] } with
          microtasks := s.microtasks ++ [.deliver side.remote cloned] }

def start (s : State α) (side : Side) : State α :=
  let port := s.ports side
  if port.started then s
  else
    { s.setPort side { port with started := true, queue := [] } with
      microtasks := s.microtasks ++ port.queue.map (.dispatch side) }

def setOnmessage (s : State α) (side : Side) (null : Bool) : State α :=
  if null then s else s.start side

def close (s : State α) (side : Side) : State α :=
  s.setPort side { s.ports side with closed := true, queue := [] }

def dispatch (s : State α) (side : Side) (data : α) : State α :=
  let port := s.ports side
  if port.closed then s
  else s.setPort side { port with dispatched := port.dispatched ++ [data] }

def deliver (s : State α) (side : Side) (data : α) : State α :=
  let port := s.ports side
  if port.closed then s
  else if ¬ port.started then s.setPort side { port with queue := port.queue ++ [data] }
  else s.dispatch side data

def runMicrotask (s : State α) : Microtask α → State α
  | .deliver side data => s.deliver side data
  | .dispatch side data => s.dispatch side data

end State

def step (structuredClone : α → Option α) (s : State α) : Event α → Option (State α)
  | .write object value => some { s with objects := Function.update s.objects object value }
  | .postMessage side object => some (s.postMessage structuredClone side object)
  | .start side => some (s.start side)
  | .setOnmessage side null => some (s.setOnmessage side null)
  | .close side => some (s.close side)
  | .microtask =>
      match s.microtasks with
      | [] => none
      | task :: microtasks => some (State.runMicrotask { s with microtasks } task)

/-- `new MessageChannel()`. -/
def initial (objects : ℕ → α) : State α := ⟨fun _ => ⟨false, false, [], [], []⟩, [], objects⟩

def machine (structuredClone : α → Option α) : Machine (State α) (Event α) where
  init s := ∃ objects, s = initial objects
  step := step structuredClone

/-! ### Messages on their way -/

def State.pending (s : State α) (side : Side) : List (Microtask α) :=
  s.microtasks.filter fun task => task.port = side

/-- A start with waiting messages: no message is on its way to the port. -/
def Clear (s : State α) (side : Side) : Prop :=
  (s.ports side).started = false → (s.ports side).queue ≠ [] →
    ∀ task ∈ s.pending side, task.isDeliver = false

def Settled (s : State α) : Event α → Prop
  | .start side => Clear s side
  | .setOnmessage side false => Clear s side
  | _ => True

structure Ordered (port : MessagePort α) (pending : List (Microtask α)) : Prop where
  dispatched : port.dispatched <+: port.posted
  whole : port.closed = false →
    port.dispatched ++ port.queue ++ pending.map Microtask.data = port.posted
  waiting : port.started = false → port.dispatched = [] ∧ ∀ task ∈ pending, task.isDeliver = true
  emptied : port.started = true → port.queue = []

def Invariant (s : State α) : Prop := ∀ side, Ordered (s.ports side) (s.pending side)

variable {s s' : State α}

theorem invariant_setPort (side : Side) (h : Invariant s)
    (hself : Ordered (s'.ports side) (s'.pending side))
    (hother : ∀ other, other ≠ side → s'.ports other = s.ports other ∧ s'.pending other =
    s.pending other) : Invariant s' := by
  intro other
  by_cases heq : other = side
  · rw [heq]
    exact hself
  · obtain ⟨hport, hpending⟩ := hother other heq
    rw [hport, hpending]
    exact h other

variable {pending : List (Microtask α)} {port : MessagePort α}

theorem Ordered.post (h : Ordered port pending) (side : Side) (data : α) :
    Ordered { port with posted := port.posted ++ [data] } (pending ++ [.deliver side data]) where
  __ := h
  dispatched := h.dispatched.trans (List.prefix_append _ _)
  whole hopen := by
    show port.dispatched ++ port.queue ++ _ = port.posted ++ [data]
    rw [List.map_append, ← List.append_assoc, h.whole hopen]
    rfl
  waiting hstarted := by
    obtain ⟨hnone, hall⟩ := h.waiting hstarted
    refine ⟨hnone, fun task hmem => ?_⟩
    rcases List.mem_append.1 hmem with hmem | hmem
    · exact hall task hmem
    · rw [List.mem_singleton.1 hmem]
      rfl

theorem Ordered.start {port : MessagePort α} {pending : List (Microtask α)} (h : Ordered port pending)
    (side : Side) (hstarted : port.started = false)
    (hclear : port.queue ≠ [] → ∀ task ∈ pending, task.isDeliver = false) :
    Ordered { port with started := true, queue := [] }
      (pending ++ port.queue.map (.dispatch side)) where
  __ := h
  whole hopen := by
    have hwhole := h.whole hopen
    obtain ⟨-, hall⟩ := h.waiting hstarted
    have hdata : (port.queue.map (Microtask.dispatch side)).map Microtask.data = port.queue := by
      rw [List.map_map]
      exact List.map_id _
    show port.dispatched ++ [] ++ _ = port.posted
    rw [List.map_append, hdata, ← hwhole, List.append_nil]
    cases hqueue : port.queue with
    | nil => simp
    | cons first rest =>
      -- every task would deliver, and none does
      have hnone : pending = [] := by
        rw [List.eq_nil_iff_forall_not_mem]
        intro task hmem
        have hdeliver := hall task hmem
        rw [hclear (by simp [hqueue]) task hmem] at hdeliver
        cases hdeliver
      simp [hnone]
  waiting hfalse := by cases hfalse
  emptied _ := rfl

theorem Ordered.close (h : Ordered port pending) :
    Ordered { port with closed := true, queue := [] } pending where
  __ := h
  whole hopen := by cases hopen
  emptied _ := rfl

variable {task : Microtask α}

theorem Ordered.drop (h : Ordered port (task :: pending)) (hclosed : port.closed = true) :
    Ordered port pending where
  __ := h
  whole hopen := by
    rw [hclosed] at hopen
    cases hopen
  waiting hstarted := by
    obtain ⟨hnone, hall⟩ := h.waiting hstarted
    exact ⟨hnone, fun task hmem => hall task (List.mem_cons_of_mem _ hmem)⟩

theorem Ordered.dispatch (h : Ordered port (task :: pending)) (hopen : port.closed = false)
    (hstarted : port.started = true) :
    Ordered { port with dispatched := port.dispatched ++ [task.data] } pending := by
  have hwhole := h.whole hopen
  rw [h.emptied hstarted, List.append_nil, List.map_cons] at hwhole
  refine ⟨⟨pending.map Microtask.data, ?_⟩, fun _ => ?_, fun hfalse => ?_, h.emptied⟩
  · show port.dispatched ++ [task.data] ++ _ = port.posted
    rw [← hwhole, List.append_assoc]
    rfl
  · show port.dispatched ++ [task.data] ++ port.queue ++ _ = port.posted
    rw [h.emptied hstarted, ← hwhole, List.append_nil, List.append_assoc]
    rfl
  · rw [hstarted] at hfalse
    cases hfalse

theorem Ordered.deliver (h : Ordered port (task :: pending)) (hopen : port.closed = false)
    (hstarted : port.started = false) :
    Ordered { port with queue := port.queue ++ [task.data] } pending := by
  have hwhole := h.whole hopen
  obtain ⟨hnone, hall⟩ := h.waiting hstarted
  refine ⟨h.dispatched, fun _ => ?_, fun _ => ⟨hnone, fun task hmem => ?_⟩, fun htrue => ?_⟩
  · show port.dispatched ++ (port.queue ++ [task.data]) ++ _ = port.posted
    rw [← hwhole, List.map_cons]
    simp
  · exact hall task (List.mem_cons_of_mem _ hmem)
  · rw [hstarted] at htrue
    cases htrue

/-! ### One step -/

variable {structuredClone : α → Option α}

theorem postMessage_invariant (h : Invariant s) (side : Side) (object : ℕ) :
    Invariant (s.postMessage structuredClone side object) := by
  unfold State.postMessage
  simp only
  split
  case isTrue => exact h
  case isFalse =>
    split
    case isTrue => exact h
    case isFalse =>
      split
      case h_1 => exact h
      case h_2 cloned _ =>
        refine invariant_setPort side.remote h ?_ fun other hne => ⟨?_, ?_⟩
        · have hpost := (h side.remote).post side.remote cloned
          simpa [State.pending, State.setPort, Microtask.port] using hpost
        · exact State.setPort_ne s _ hne
        · simp [State.pending, Microtask.port, Ne.symm hne]

variable {side : Side}

theorem start_invariant (h : Invariant s) (hclear : Clear s side) : Invariant (s.start side) := by
  unfold State.start
  simp only
  split
  case isTrue => exact h
  case isFalse hnot =>
    have hstarted : (s.ports side).started = false := Bool.eq_false_iff.2 hnot
    have hself : ((s.ports side).queue.map (Microtask.dispatch side)).filter
        (fun task => task.port = side) = (s.ports side).queue.map (Microtask.dispatch side) := by
      rw [List.filter_eq_self]
      intro task hmem
      obtain ⟨data, -, rfl⟩ := List.mem_map.1 hmem
      simp [Microtask.port]
    refine invariant_setPort side h ?_ fun other hne => ⟨?_, ?_⟩
    · have hstart := (h side).start side hstarted (hclear hstarted)
      simpa [State.pending, State.setPort, hself] using hstart
    · exact State.setPort_ne s _ hne
    · have hnone : ((s.ports side).queue.map (Microtask.dispatch side)).filter
          (fun task => task.port = other) = [] := by
        rw [List.filter_eq_nil_iff]
        intro task hmem
        obtain ⟨data, -, rfl⟩ := List.mem_map.1 hmem
        simp [Microtask.port, hne.symm]
      simp [State.pending, hnone]

theorem close_invariant (h : Invariant s) (side : Side) : Invariant (s.close side) := by
  refine invariant_setPort side h ?_ fun other hne => ⟨State.setPort_ne s _ hne, rfl⟩
  have hclose := (h side).close
  simpa [State.close, State.pending, State.setPort] using hclose

theorem microtask_invariant (h : Invariant s) {microtasks : List (Microtask α)}
    (htasks : s.microtasks = task :: microtasks) :
    Invariant (State.runMicrotask { s with microtasks } task) := by
  have hfirst : s.pending task.port =
      task :: microtasks.filter (fun other => other.port = task.port) := by
    simp [State.pending, htasks]
  have hordered := h task.port
  rw [hfirst] at hordered
  have hother : ∀ other, other ≠ task.port →
      microtasks.filter (fun task => task.port = other) = s.pending other := by
    intro other hne
    simp [State.pending, htasks, Ne.symm hne]
  -- what is left of the ports when the task does nothing, and when it changes its own port
  have hdropped : (s.ports task.port).closed = true → Invariant { s with microtasks } :=
    fun hclosed => invariant_setPort task.port h (hordered.drop hclosed)
      fun other hne => ⟨rfl, hother other hne⟩
  have hchanged : ∀ port, Ordered port (microtasks.filter fun other => other.port = task.port) →
      Invariant (State.setPort { s with microtasks } task.port port) :=
    fun port hport => invariant_setPort task.port h
      (by simpa [State.pending, State.setPort] using hport)
      fun other hne => ⟨State.setPort_ne _ _ hne, hother other hne⟩
  have hdispatch : (s.ports task.port).started = true →
      Invariant (State.dispatch { s with microtasks } task.port task.data) := by
    intro hstarted
    unfold State.dispatch
    simp only
    split
    case isTrue hclosed => exact hdropped hclosed
    case isFalse hopen => exact hchanged _ (hordered.dispatch (Bool.eq_false_iff.2 hopen) hstarted)
  cases task with
  | dispatch side data =>
    -- a port that is not started has no such task
    refine hdispatch ?_
    by_contra hnot
    have hdeliver := (hordered.waiting (Bool.eq_false_iff.2 hnot)).2 _ List.mem_cons_self
    cases hdeliver
  | deliver side data =>
    show Invariant (State.deliver _ side data)
    unfold State.deliver
    simp only
    split
    case isTrue hclosed => exact hdropped hclosed
    case isFalse hopen =>
      split
      case isTrue hnot =>
        exact hchanged _ (hordered.deliver (Bool.eq_false_iff.2 hopen) (Bool.eq_false_iff.2 hnot))
      case isFalse hstarted => exact hdispatch (not_not.1 hstarted)

variable {event : Event α}

theorem step_invariant (h : Invariant s) (hsettled : Settled s event)
    (hstep : step structuredClone s event = some s') : Invariant s' := by
  cases event with
  | write object value => cases hstep; exact h
  | postMessage side object => cases hstep; exact postMessage_invariant h side object
  | start side => cases hstep; exact start_invariant h hsettled
  | setOnmessage side null =>
    cases hstep
    cases null with
    | true => exact h
    | false => exact start_invariant h hsettled
  | close side => cases hstep; exact close_invariant h side
  | microtask =>
    simp only [step] at hstep
    split at hstep
    case h_1 => cases hstep
    case h_2 task microtasks htasks =>
      cases hstep
      exact microtask_invariant h htasks

theorem initial_invariant (objects : ℕ → α) : Invariant (initial objects) := by
  intro side
  exact ⟨List.prefix_refl _, fun _ => rfl, fun _ => ⟨rfl, fun _ hmem => absurd hmem List.not_mem_nil⟩,
    fun _ => rfl⟩

/-! ### Delivery in order -/

/-- What a program can rely on: messages are dispatched in the order of the posts, with the values
the objects had then, on open ports that have been started, and all of them in the end. -/
structure InOrder (structuredClone : α → Option α) (s : State α) : Prop where
  inOrder : ∀ side, (s.ports side).dispatched <+: (s.ports side).posted
  onlyOpen : ∀ event s', step structuredClone s event = some s' → ∀ side,
    (s'.ports side).dispatched ≠ (s.ports side).dispatched →
      (s.ports side).started = true ∧ (s.ports side).closed = false
  cloned : ∀ event s', step structuredClone s event = some s' → ∀ side,
    (s'.ports side).posted = (s.ports side).posted ∨
      ∃ poster object data, event = .postMessage poster object ∧ side = poster.remote ∧
        structuredClone (s.objects object) = some data ∧
        (s'.ports side).posted = (s.ports side).posted ++ [data]
  drained : ∀ side, (s.ports side).started = true → (s.ports side).closed = false →
    s.microtasks = [] → (s.ports side).dispatched = (s.ports side).posted

variable {β : Type}

theorem ledger_setPort (ledger : MessagePort α → β) (h : ledger port = ledger (s.ports side))
    (other : Side) : ledger ((s.setPort side port).ports other) = ledger (s.ports other) := by
  by_cases heq : other = side
  · rw [heq, State.setPort_self, h]
  · rw [State.setPort_ne s port heq]

theorem start_ledger (ledger : MessagePort α → β) (s : State α) (side : Side)
    (h : ∀ port : MessagePort α, ledger { port with started := true, queue := [] } = ledger port)
    (other : Side) : ledger ((s.start side).ports other) = ledger (s.ports other) := by
  unfold State.start
  simp only
  split
  · rfl
  · exact ledger_setPort ledger (h _) other

theorem dispatch_posted (s : State α) (side : Side) (data : α) (other : Side) :
    ((s.dispatch side data).ports other).posted = (s.ports other).posted := by
  unfold State.dispatch
  simp only
  split
  · rfl
  · exact ledger_setPort MessagePort.posted (by rfl) other

theorem deliver_posted (s : State α) (side : Side) (data : α) (other : Side) :
    ((s.deliver side data).ports other).posted = (s.ports other).posted := by
  unfold State.deliver
  simp only
  split
  · rfl
  · split
    · exact ledger_setPort MessagePort.posted (by rfl) other
    · exact dispatch_posted s side data other

theorem dispatch_dispatched (s : State α) (side : Side) (data : α) (other : Side) :
    ((s.dispatch side data).ports other).dispatched = (s.ports other).dispatched ∨
      other = side ∧ (s.ports side).closed = false := by
  unfold State.dispatch
  simp only
  split
  · exact .inl rfl
  · rename_i hopen
    by_cases heq : other = side
    · exact .inr ⟨heq, Bool.eq_false_iff.2 hopen⟩
    · rw [State.setPort_ne s _ heq]
      exact .inl rfl

theorem deliver_dispatched (s : State α) (side : Side) (data : α) (other : Side) :
    ((s.deliver side data).ports other).dispatched = (s.ports other).dispatched ∨
      other = side ∧ (s.ports side).started = true ∧ (s.ports side).closed = false := by
  unfold State.deliver
  simp only
  split
  · exact .inl rfl
  · split
    · exact .inl (ledger_setPort MessagePort.dispatched (by rfl) other)
    · rename_i hstarted
      rcases dispatch_dispatched s side data other with hsame | ⟨heq, hopen⟩
      · exact .inl hsame
      · exact .inr ⟨heq, not_not.1 hstarted, hopen⟩

/-- **Only an open port that has been started dispatches.** -/
theorem step_dispatched (h : Invariant s) (hstep : step structuredClone s event = some s')
    (side : Side) (hne : (s'.ports side).dispatched ≠ (s.ports side).dispatched) :
    (s.ports side).started = true ∧ (s.ports side).closed = false := by
  cases event with
  | write object value => cases hstep; exact absurd rfl hne
  | postMessage poster object =>
    cases hstep
    refine absurd ?_ hne
    unfold State.postMessage
    simp only
    repeat' split
    · rfl
    · rfl
    · rfl
    · exact ledger_setPort MessagePort.dispatched (by rfl) side
  | start other =>
    cases hstep
    exact absurd (start_ledger MessagePort.dispatched s other (fun _ => rfl) side) hne
  | setOnmessage other null =>
    cases hstep
    cases null with
    | true => exact absurd rfl hne
    | false => exact absurd (start_ledger MessagePort.dispatched s other (fun _ => rfl) side) hne
  | close other => cases hstep; exact absurd (ledger_setPort MessagePort.dispatched (by rfl) side) hne
  | microtask =>
    simp only [step] at hstep
    split at hstep
    case h_1 => cases hstep
    case h_2 task microtasks htasks =>
      cases hstep
      cases task with
      | deliver other data =>
        rcases deliver_dispatched { s with microtasks } other data side with hsame | ⟨rfl, hport⟩
        · exact absurd hsame hne
        · exact hport
      | dispatch other data =>
        rcases dispatch_dispatched { s with microtasks } other data side with hsame | ⟨rfl, hopen⟩
        · exact absurd hsame hne
        · refine ⟨?_, hopen⟩
          by_contra hnot
          -- such a microtask comes from a start
          have hmem : Microtask.dispatch side data ∈ s.pending side := by
            simp [State.pending, htasks, Microtask.port]
          have hdeliver := ((h side).waiting (Bool.eq_false_iff.2 hnot)).2 _ hmem
          cases hdeliver

/-- **A port gets the clone of what the object was at the time of the post.** -/
theorem step_posted (hstep : step structuredClone s event = some s') (side : Side) :
    (s'.ports side).posted = (s.ports side).posted ∨
      ∃ poster object data, event = .postMessage poster object ∧ side = poster.remote ∧
        structuredClone (s.objects object) = some data ∧
        (s'.ports side).posted = (s.ports side).posted ++ [data] := by
  cases event with
  | write object value => cases hstep; exact .inl rfl
  | postMessage poster object =>
    cases hstep
    unfold State.postMessage
    simp only
    split
    case isTrue => exact .inl rfl
    case isFalse =>
      split
      case isTrue => exact .inl rfl
      case isFalse =>
        split
        case h_1 => exact .inl rfl
        case h_2 data hclone =>
          by_cases heq : side = poster.remote
          · refine .inr ⟨poster, object, data, rfl, heq, hclone, ?_⟩
            rw [heq]
            exact congrArg MessagePort.posted (State.setPort_self s _ _)
          · exact .inl (congrArg MessagePort.posted (State.setPort_ne s _ heq))
  | start other => cases hstep; exact .inl (start_ledger MessagePort.posted s other (fun _ => rfl) side)
  | setOnmessage other null =>
    cases hstep
    cases null with
    | true => exact .inl rfl
    | false => exact .inl (start_ledger MessagePort.posted s other (fun _ => rfl) side)
  | close other => cases hstep; exact .inl (ledger_setPort MessagePort.posted (by rfl) side)
  | microtask =>
    simp only [step] at hstep
    split at hstep
    case h_1 => cases hstep
    case h_2 task microtasks htasks =>
      cases hstep
      cases task with
      | deliver other data => exact .inl (deliver_posted { s with microtasks } other data side)
      | dispatch other data => exact .inl (dispatch_posted { s with microtasks } other data side)

/-- **Delivery in order**, in every run that starts waiting messages only when none is on its
way. -/
theorem delivers_inOrder (structuredClone : α → Option α) (s : State α)
    (h : (machine structuredClone).ReachableIf Settled s) : InOrder structuredClone s := by
  have hinv : Invariant s := by
    refine Machine.ReachableIf.invariant ?_ ?_ h
    · rintro s ⟨objects, rfl⟩
      exact initial_invariant objects
    · intro s event s' hinv hsettled hstep
      exact step_invariant hinv hsettled hstep
  refine ⟨fun side => (hinv side).dispatched, fun event s' hstep side hne =>
    step_dispatched hinv hstep side hne, fun event s' hstep side => step_posted hstep side, ?_⟩
  intro side hstarted hopen htasks
  have hwhole := (hinv side).whole hopen
  have hnone : s.pending side = [] := by rw [State.pending, htasks]; rfl
  rw [(hinv side).emptied hstarted, hnone] at hwhole
  simpa using hwhole

def sampleRun : List (Event ℕ) :=
  [.postMessage .port1 5, .microtask, .start .port2, .postMessage .port1 6, .microtask, .microtask]

theorem delivers_inOrder_sampleRun : ∃ s, (machine some).exec (initial id) sampleRun = some s ∧
    (s.ports .port2).dispatched = [5, 6] ∧ InOrder some s := by
  refine ⟨_, rfl, rfl, delivers_inOrder some _ ⟨initial id, sampleRun, ⟨id, rfl⟩, ?_⟩⟩
  refine .cons trivial rfl <| .cons trivial rfl <| .cons ?_ rfl <| .cons trivial rfl <|
    .cons trivial rfl <| .cons trivial rfl <| .nil _
  intro _ _ task hmem
  exact absurd hmem List.not_mem_nil

/-- The second message is on its way when the first one is started, and overtakes it. -/
theorem message_overtakes : ¬ ∀ s : State ℕ, (machine some).Reachable s → InOrder some s := by
  intro h
  have hrun : (machine some).exec (initial id)
      [.postMessage .port1 5, .microtask, .postMessage .port1 6, .start .port2, .microtask] =
        some _ := rfl
  have hfront := (h _ (Machine.reachable_of_exec ⟨id, rfl⟩ hrun)).inOrder .port2
  have hfirst : [6] <+: [5, 6] := hfront
  exact absurd hfirst (by decide)

end QuickBeam.Messaging.MessageChannel
