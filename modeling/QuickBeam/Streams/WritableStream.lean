import QuickBeam.Lib.Transition

/-!
# `WritableStream` and `TransformStream` (`streams.ts`)

`write`, `close` and `abort` call the sink at once; the calls of the sink are numbered in their order,
and any that is `running` may finish next, in time or later.  `close` and `abort` go on after their
sink call in a later step.  Any of them can be called at any moment, also while a sink call runs.  A
writer releases the lock after a close or an abort as `releaseLock` does.

The sink of a `TransformStream` calls `transform` and `flush`, which emit chunks into the readable
side while they run; its close ends with `terminate`.

An error is `none` when it is `undefined` or `null`.  `accepted` lists the chunks of the writes that
were not rejected, `failure` is the first error of the sink, and `late` has the outcomes of the writes
and closes after it, `none` when they were not rejected.
-/

namespace QuickBeam.Streams

open QuickBeam.Lib

variable {α β ε : Type}

/-! ### Streams -/

inductive WritableState where
  | writable
  | closed
  | errored
deriving DecidableEq

inductive SinkCall (α ε : Type) where
  | start
  | write (chunk : α)
  | close
  | abort (reason : Option ε)

inductive Continuation (ε : Type) where
  | close
  | abort (reason : Option ε)

/-- Why a write or a close is rejected. -/
inductive Rejection (ε : Type) where
  | error (e : Option ε)
  /-- `TypeError: Stream is not writable`. -/
  | notWritable

inductive ReadableSide where
  | readable
  /-- The transformer has called `terminate` or `error`. -/
  | terminated
  /-- The sink's close is over. -/
  | closed

structure WritableStream (α β ε : Type) where
  state : WritableState
  storedError : Option ε
  locked : Bool
  /-- A writer has been handed out. -/
  hasWriter : Bool
  calls : List (SinkCall α ε)
  running : List ℕ
  continuations : List (Continuation ε)
  readable : ReadableSide
  /-- The chunks of the readable side, and those that came after its close, with their sink calls. -/
  outputs : List (ℕ × β)
  lost : List (ℕ × β)
  accepted : List α
  failure : Option (Option ε)
  late : List (Option (Rejection ε))

namespace SinkCall

def chunk : SinkCall α ε → Option α
  | .write chunk => some chunk
  | _ => none

def isWrite : SinkCall α ε → Bool
  | .write _ => true
  | _ => false

def isClose : SinkCall α ε → Bool
  | .close => true
  | _ => false

def isAbort : SinkCall α ε → Bool
  | .abort _ => true
  | _ => false

end SinkCall

namespace WritableStream

/-- The constructor has called `start`. -/
def initial : WritableStream α β ε :=
  ⟨.writable, none, false, false, [.start], [0], [], .readable, [], [], [], none, []⟩

/-! ### Calls of the sink -/

def begin (s : WritableStream α β ε) (call : SinkCall α ε) : WritableStream α β ε :=
  { s with calls := s.calls ++ [call], running := s.running ++ [s.calls.length] }

def fail (s : WritableStream α β ε) (e : Option ε) : WritableStream α β ε :=
  { s with failure := s.failure.or (some e) }

def note (s : WritableStream α β ε) (outcome : Option (Rejection ε)) : WritableStream α β ε :=
  { s with late := if s.failure.isSome then s.late ++ [outcome] else s.late }

def error (s : WritableStream α β ε) (e : Option ε) : WritableStream α β ε :=
  match s.state with
  | .writable => { s.fail e with state := .errored, storedError := e }
  | _ => s

/-- `storedError ?? new TypeError("Stream is not writable")`. -/
def rejection (s : WritableStream α β ε) : Rejection ε :=
  match s.storedError with
  | some e => .error (some e)
  | none => .notWritable

def write (s : WritableStream α β ε) (chunk : α) : WritableStream α β ε :=
  match s.state with
  | .writable => { (s.note none).begin (.write chunk) with accepted := s.accepted ++ [chunk] }
  | _ => s.note (some s.rejection)

def writerClose (s : WritableStream α β ε) : WritableStream α β ε :=
  match s.state with
  | .writable => (s.note none).begin .close
  | _ => s.note none

def close (s : WritableStream α β ε) : Option (WritableStream α β ε) :=
  match s.locked, s.state with
  | true, _ => none
  | false, .writable => some ((s.note none).begin .close)
  | false, _ => some (s.note (some .notWritable))

def finish (s : WritableStream α β ε) (call : ℕ) (failed : Option (Option ε)) :
    Option (WritableStream α β ε) :=
  if call ∈ s.running then
    let s : WritableStream α β ε := { s with running := s.running.erase call }
    match s.calls[call]?, failed with
    -- `handleControllerStart`
    | some .start, some e => some ((s.fail e).error e)
    | some .close, none => some { s with
        continuations := s.continuations ++ [.close]
        readable := match s.readable with
          | .readable => .closed
          | side => side }
    | some (.abort reason), none => some { s with
        continuations := s.continuations ++ [.abort reason] }
    | _, some e => some (s.fail e)
    | _, none => some s
  else none

def resume (s : WritableStream α β ε) : Option (WritableStream α β ε) :=
  match s.continuations with
  | .close :: continuations => some { s with continuations, state := .closed }
  | .abort reason :: continuations =>
    some { s with continuations, state := .errored, storedError := reason }
  | [] => none

/-- `transform` or `flush` enqueues a chunk. -/
def emit (s : WritableStream α β ε) (call : ℕ) (value : β) : Option (WritableStream α β ε) :=
  match decide (call ∈ s.running), s.calls[call]? with
  | true, some (.write _) | true, some .close =>
    match s.readable with
    | .readable => some { s with outputs := s.outputs ++ [(call, value)] }
    | .closed => some { s with lost := s.lost ++ [(call, value)] }
    | .terminated => some s
  | _, _ => none

/-! ### Steps -/

inductive Event (α β ε : Type) where
  | getWriter
  | releaseLock
  | write (chunk : α)
  | writerClose
  | writerAbort (reason : Option ε)
  | close
  | abort (reason : Option ε)
  | finish (call : ℕ) (failed : Option (Option ε))
  | resume
  | controllerError (e : Option ε)
  | emit (call : ℕ) (value : β)
  | terminate

def ofWriter (s next : WritableStream α β ε) : Option (WritableStream α β ε) :=
  if s.hasWriter then some next else none

def step (s : WritableStream α β ε) : Event α β ε → Option (WritableStream α β ε)
  | .getWriter => if s.locked then none else some { s with locked := true, hasWriter := true }
  | .releaseLock => s.ofWriter { s with locked := false }
  | .write chunk => s.ofWriter (s.write chunk)
  | .writerClose => s.ofWriter s.writerClose
  | .writerAbort reason => s.ofWriter (s.begin (.abort reason))
  | .close => s.close
  | .abort reason => if s.locked then none else some (s.begin (.abort reason))
  | .finish call failed => s.finish call failed
  | .resume => s.resume
  | .controllerError e => some (s.error e)
  | .emit call value => s.emit call value
  | .terminate => some { s with
      readable := match s.readable with
        | .readable => .terminated
        | side => side }

def machine : Machine (WritableStream α β ε) (Event α β ε) where
  init s := s = initial
  step := step

/-! ### The sink is served one call at a time -/

structure SerialisesSink (s : WritableStream α β ε) : Prop where
  started : (∃ call ∈ s.calls, call.isWrite) → 0 ∉ s.running
  serial : s.running.length ≤ 1
  order : s.calls.filterMap SinkCall.chunk = s.accepted
  closesOnce : s.calls.countP SinkCall.isClose ≤ 1
  closesLast : (∃ call ∈ s.calls, call.isClose) → ∀ k ∈ s.running, ∀ call, s.calls[k]? = some call →
    call.isWrite = false
  failed : ∀ e, s.failure = some e → s.state = .errored ∧ s.storedError = e
  rejects : ∀ outcome ∈ s.late, ∃ e, s.failure = some e ∧ outcome = some (.error e)
  nothingAfter : s.calls.Pairwise fun a b => a.isClose ∨ a.isAbort → b.isWrite = false
  /-- Outputs come in the order of the inputs, and none after an output of the flush. -/
  inOrder : s.outputs.Pairwise fun a b => a.1 ≤ b.1
  flushLast : s.outputs.Pairwise fun a b => ∀ call, s.calls[a.1]? = some call → call.isClose →
    ∀ next, s.calls[b.1]? = some next → next.isWrite = false
  complete : s.lost = []

/-- No sink call runs and no close or abort has to go on. -/
def Rests (s : WritableStream α β ε) : Prop := s.running = [] ∧ s.continuations = []

def MayWrite (s : WritableStream α β ε) : Prop :=
  if s.state = .writable then s.Rests else s.failure ≠ some none

def MayClose (s : WritableStream α β ε) : Prop :=
  if s.state = .writable then s.Rests else s.failure = none

/-- A write or a close of a writable stream, and an abort, comes when no call of the sink runs; for
the first two, none has to go on either.  A call that fails does so after `controller.error`, unless
it is the start; a stream that the sink has errored is not closed, is not aborted with another
reason, and has an error that is not nullish when it is written to. -/
def Waits (s : WritableStream α β ε) : Event α β ε → Prop
  | .write _ => s.MayWrite
  | .writerClose | .close => s.MayClose
  | .writerAbort _ | .abort _ => s.running = []
  | .finish call failed => ∀ e, failed = some e → (∀ c, s.calls[call]? = some c → c ≠ .start) →
      s.failure.isSome = true
  | .resume => match s.continuations with
      | .close :: _ => s.failure = none
      | .abort reason :: _ => ∀ e, s.failure = some e → e = reason
      | [] => True
  | _ => True

def Ends (call : SinkCall α ε) : Prop := call.isClose = true ∨ call.isAbort = true

structure Invariant (s : WritableStream α β ε) : Prop where
  head : ∃ calls, s.calls = .start :: calls ∧ .start ∉ calls
  last : s.running = [] ∨ s.running = [s.calls.length - 1]
  order : s.calls.filterMap SinkCall.chunk = s.accepted
  closesOnce : s.calls.countP SinkCall.isClose ≤ 1
  failed : ∀ e, s.failure = some e → s.state = .errored ∧ s.storedError = e
  rejects : ∀ outcome ∈ s.late, ∃ e, s.failure = some e ∧ outcome = some (.error e)
  nothingAfter : s.calls.Pairwise fun a b => Ends a → b.isWrite = false
  /-- A writable stream that is being closed or aborted has a call under way. -/
  ending : s.state = .writable → (∃ call ∈ s.calls, Ends call) →
    s.running ≠ [] ∨ s.continuations ≠ []
  left : s.state ≠ .writable → s.failure.isSome = true ∨ ∃ call ∈ s.calls, Ends call
  continued : s.continuations ≠ [] → ∃ call ∈ s.calls, Ends call
  inOrder : s.outputs.Pairwise fun a b => a.1 ≤ b.1
  outputs : ∀ output ∈ s.outputs, output.1 < s.calls.length
  closed : s.readable = .closed → (∃ call ∈ s.calls, call.isClose = true) ∧
    ∀ k ∈ s.running, ∀ call, s.calls[k]? = some call → call.isClose = false
  complete : s.lost = []

/-! ### Facts of the invariant -/

section Facts

variable {s : WritableStream α β ε} (h : Invariant s)
include h

theorem Invariant.calls_ne_nil : s.calls ≠ [] := by
  obtain ⟨calls, hcalls, -⟩ := h.head
  rw [hcalls]
  nofun

variable {k : ℕ}

theorem Invariant.eq_last (hk : k ∈ s.running) : k = s.calls.length - 1 := by
  rcases h.last with hnone | hone
  · rw [hnone] at hk
    cases hk
  · rw [hone] at hk
    exact List.mem_singleton.1 hk

variable {call : SinkCall α ε}

theorem Invariant.getLast (hk : k ∈ s.running) (hcall : s.calls[k]? = some call) :
    ∃ calls, s.calls = calls ++ [call] := by
  rw [h.eq_last hk, ← List.getLast?_eq_getElem?] at hcall
  exact List.getLast?_eq_some_iff.1 hcall

theorem Invariant.getElem_running (hk : k ∈ s.running) : ∃ call, s.calls[k]? = some call := by
  refine ⟨s.calls.getLast h.calls_ne_nil, ?_⟩
  rw [h.eq_last hk, ← List.getLast?_eq_getElem?]
  exact List.getLast?_eq_some_getLast h.calls_ne_nil

theorem Invariant.not_ends (hk : k ∈ s.running) (hcall : s.calls[k]? = some call)
    (hwrite : call.isWrite = true) : ¬ ∃ c ∈ s.calls, Ends c := by
  obtain ⟨calls, hcalls⟩ := h.getLast hk hcall
  rintro ⟨c, hc, hends⟩
  have hafter := h.nothingAfter
  rw [hcalls] at hc hafter
  rcases List.mem_append.1 hc with hold | hnew
  · have hnot := (List.pairwise_append.1 hafter).2.2 c hold call (List.mem_singleton_self call) hends
    rw [hwrite] at hnot
    cases hnot
  · rw [List.mem_singleton.1 hnew] at hends
    cases call with
    | write chunk => rcases hends with hends | hends <;> cases hends
    | start => cases hwrite
    | close => cases hwrite
    | abort reason => cases hwrite

theorem Invariant.only_start (hk : k ∈ s.running) (hcall : s.calls[k]? = some .start) :
    s.calls = [.start] := by
  obtain ⟨calls, hcalls⟩ := h.getLast hk hcall
  obtain ⟨rest, hrest, hstart⟩ := h.head
  cases calls with
  | nil => exact hcalls
  | cons first calls =>
    rw [hcalls] at hrest
    obtain ⟨rfl, rfl⟩ := List.cons.inj hrest
    exact absurd (List.mem_append_right calls (List.mem_singleton_self _)) hstart

theorem Invariant.no_failure (hstate : s.state = .writable) : s.failure = none := by
  cases hfailure : s.failure with
  | none => rfl
  | some e =>
    rw [(h.failed e hfailure).1] at hstate
    cases hstate

theorem Invariant.no_late (hfailure : s.failure = none) : s.late = [] := by
  refine List.eq_nil_iff_forall_not_mem.2 fun outcome houtcome => ?_
  obtain ⟨e, he, -⟩ := h.rejects outcome houtcome
  rw [hfailure] at he
  cases he

theorem Invariant.not_ending (hstate : s.state = .writable) (hrunning : s.running = [])
    (hcontinuations : s.continuations = []) : ¬ ∃ c ∈ s.calls, Ends c := by
  intro hends
  rcases h.ending hstate hends with hne | hne
  · exact hne hrunning
  · exact hne hcontinuations

end Facts

variable {s : WritableStream α β ε}

theorem note_of_none (hfailure : s.failure = none) (outcome : Option (Rejection ε)) :
    s.note outcome = s := by
  have hlate : (if s.failure.isSome then s.late ++ [outcome] else s.late) = s.late := by
    rw [hfailure]
    rfl
  unfold note
  rw [hlate]

theorem fail_of_isSome (hfailure : s.failure.isSome = true) (e : Option ε) : s.fail e = s := by
  obtain ⟨e', he'⟩ := Option.isSome_iff_exists.1 hfailure
  unfold fail
  rw [he', Option.some_or, ← he']

theorem error_fail (hstate : s.state = .writable) (e : Option ε) :
    (s.fail e).error e = s.error e := by
  have hsome : (s.fail e).failure.isSome = true := by
    show (s.failure.or (some e)).isSome = true
    cases s.failure <;> rfl
  have htwice : (s.fail e).fail e = s.fail e := fail_of_isSome hsome e
  unfold error
  rw [show (s.fail e).state = .writable from hstate, hstate, htwice]

/-! ### Steps keep the invariant -/

section Step

variable {s s' : WritableStream α β ε} (h : Invariant s)
include h

variable {call : SinkCall α ε}

theorem Invariant.begin {accepted : List α} (hidle : s.running = []) (hstart : .start ≠ call)
    (haccepted : s.accepted ++ [call].filterMap SinkCall.chunk = accepted)
    (hclose : call.isClose = true → ∀ c ∈ s.calls, c.isClose = false)
    (hwrite : call.isWrite = true → ¬ ∃ c ∈ s.calls, Ends c) :
    Invariant { s.begin call with accepted } := by
  have hrunning : s.running ++ [s.calls.length] = [s.calls.length] := by rw [hidle, List.nil_append]
  have hlength : (s.calls ++ [call]).length = s.calls.length + 1 := List.length_append
  have hgrow : (∃ c ∈ s.calls, Ends c) → ∃ c ∈ s.calls ++ [call], Ends c :=
    fun ⟨c, hc, hends⟩ => ⟨c, List.mem_append_left _ hc, hends⟩
  exact { h with
    head := by
      obtain ⟨calls, hcalls, hnot⟩ := h.head
      refine ⟨calls ++ [call], ?_, ?_⟩
      · show s.calls ++ [call] = _
        rw [hcalls]
        rfl
      · rw [List.mem_append, List.mem_singleton, not_or]
        exact ⟨hnot, hstart⟩
    last := by
      refine .inr ?_
      show s.running ++ [s.calls.length] = [(s.calls ++ [call]).length - 1]
      rw [hrunning, hlength]
      rfl
    order := by
      show (s.calls ++ [call]).filterMap SinkCall.chunk = accepted
      rw [List.filterMap_append, h.order, haccepted]
    closesOnce := by
      show (s.calls ++ [call]).countP SinkCall.isClose ≤ 1
      rw [List.countP_append, List.countP_singleton]
      split
      · rename_i hcall
        have hzero : s.calls.countP SinkCall.isClose = 0 :=
          List.countP_eq_zero.2 fun c hc => by rw [hclose hcall c hc]; nofun
        rw [hzero]
      · exact h.closesOnce
    nothingAfter := by
      refine List.pairwise_append.2 ⟨h.nothingAfter, List.pairwise_singleton .., ?_⟩
      intro c hc next hnext hends
      rw [List.mem_singleton.1 hnext]
      by_contra htrue
      rw [Bool.not_eq_false] at htrue
      exact hwrite htrue ⟨c, hc, hends⟩
    ending := by
      refine fun _ _ => .inl ?_
      show s.running ++ [s.calls.length] ≠ []
      rw [hrunning]
      nofun
    left := fun hstate => (h.left hstate).imp_right hgrow
    continued := fun hne => hgrow (h.continued hne)
    outputs := by
      intro output houtput
      show output.1 < (s.calls ++ [call]).length
      rw [hlength]
      exact Nat.lt_succ_of_lt (h.outputs output houtput)
    closed := by
      intro hreadable
      obtain ⟨⟨c, hc, hcclose⟩, -⟩ := h.closed hreadable
      refine ⟨⟨c, List.mem_append_left _ hc, hcclose⟩, fun k hk next hnext => ?_⟩
      rw [show k = s.calls.length from List.mem_singleton.1 (hrunning ▸ hk)] at hnext
      have hcall : call = next := Option.some.inj (List.getElem?_concat_length.symm.trans hnext)
      rw [← hcall]
      by_contra htrue
      rw [Bool.not_eq_false] at htrue
      rw [hclose htrue c hc] at hcclose
      cases hcclose }

theorem Invariant.stop (hending : s.state = .writable → (∃ c ∈ s.calls, Ends c) →
    s.continuations ≠ []) : Invariant { s with running := [] } :=
  { h with
    last := .inl rfl
    ending := fun hstate hends => .inr (hending hstate hends)
    closed := fun hreadable => ⟨(h.closed hreadable).1, nofun⟩ }

theorem Invariant.error (e : Option ε) : Invariant (s.error e) := by
  unfold WritableStream.error
  split
  · rename_i hstate
    have hfailure := h.no_failure hstate
    have hfail : s.failure.or (some e) = some e := by
      rw [hfailure]
      rfl
    exact { h with
      failed := by
        intro e' he'
        exact ⟨rfl, Option.some.inj (hfail.symm.trans he')⟩
      rejects := by
        intro outcome houtcome
        replace houtcome : outcome ∈ s.late := houtcome
        rw [h.no_late hfailure] at houtcome
        cases houtcome
      ending := nofun
      left := by
        intro _
        refine .inl ?_
        show (s.failure.or (some e)).isSome = true
        rw [hfail]
        rfl }
  · exact h

theorem Invariant.note {outcome : Option (Rejection ε)}
    (houtcome : ∀ e, s.failure = some e → outcome = some (.error e)) : Invariant (s.note outcome) := by
  cases hfailure : s.failure with
  | none =>
    rw [note_of_none hfailure]
    exact h
  | some e =>
    have hlate : (if s.failure.isSome then s.late ++ [outcome] else s.late) = s.late ++ [outcome] := by
      rw [hfailure]
      rfl
    exact { h with
      rejects := by
        intro o ho
        rw [show o ∈ (s.note outcome).late ↔ o ∈ s.late ++ [outcome] from hlate ▸ Iff.rfl] at ho
        rcases List.mem_append.1 ho with hold | hnew
        · exact h.rejects o hold
        · rw [List.mem_singleton.1 hnew]
          exact ⟨e, hfailure, houtcome e hfailure⟩ }

theorem Invariant.write {chunk : α} (hok : s.MayWrite) : Invariant (s.write chunk) := by
  unfold WritableStream.write
  unfold MayWrite at hok
  split
  · rename_i hstate
    rw [if_pos hstate] at hok
    rw [note_of_none (h.no_failure hstate)]
    exact h.begin hok.1 nofun rfl nofun fun _ => h.not_ending hstate hok.1 hok.2
  · rename_i hstate
    rw [if_neg hstate] at hok
    refine h.note fun e he => ?_
    have hstored := (h.failed e he).2
    unfold rejection
    rw [hstored]
    cases e with
    | none => exact absurd he hok
    | some e => rfl

theorem Invariant.beginClose (hstate : s.state = .writable) (hrunning : s.running = [])
    (hcontinuations : s.continuations = []) : Invariant ((s.note none).begin .close) := by
  rw [note_of_none (h.no_failure hstate)]
  refine h.begin hrunning nofun (List.append_nil _) (fun _ c hc => ?_) nofun
  by_contra htrue
  rw [Bool.not_eq_false] at htrue
  exact h.not_ending hstate hrunning hcontinuations ⟨c, hc, .inl htrue⟩

theorem Invariant.beginAbort (reason : Option ε) (hrunning : s.running = []) :
    Invariant (s.begin (.abort reason)) :=
  h.begin hrunning nofun (List.append_nil _) nofun nofun

variable {k : ℕ}

theorem Invariant.erase (hk : k ∈ s.running) : s.running.erase k = [] := by
  rcases h.last with hnone | hone
  · rw [hnone] at hk
    cases hk
  · rw [hone] at hk ⊢
    rw [List.mem_singleton.1 hk]
    exact List.erase_cons_head ..

theorem Invariant.stop_start (hk : k ∈ s.running) (hcall : s.calls[k]? = some .start) :
    Invariant { s with running := [] } := by
  refine h.stop fun _ ⟨c, hc, hends⟩ => ?_
  rw [h.only_start hk hcall, List.mem_singleton] at hc
  rw [hc] at hends
  rcases hends with hends | hends <;> cases hends

theorem Invariant.stop_failed (hfailure : s.failure.isSome = true) :
    Invariant { s with running := [] } := by
  obtain ⟨e, he⟩ := Option.isSome_iff_exists.1 hfailure
  refine h.stop fun hwritable => ?_
  rw [(h.failed e he).1] at hwritable
  cases hwritable

theorem Invariant.finish_start (e : Option ε) (hk : k ∈ s.running)
    (hcall : s.calls[k]? = some .start) :
    Invariant ((fail { s with running := [] } e).error e) := by
  have hstop := h.stop_start hk hcall
  cases hfailure : s.failure.isSome with
  | true =>
    rw [fail_of_isSome (s := { s with running := [] }) hfailure]
    exact hstop.error e
  | false =>
    have hstate : s.state = .writable := by
      by_contra hne
      rcases h.left hne with hsome | ⟨c, hc, hends⟩
      · rw [hfailure] at hsome
        cases hsome
      · rw [h.only_start hk hcall, List.mem_singleton] at hc
        rw [hc] at hends
        rcases hends with hends | hends <;> cases hends
    rw [error_fail (s := { s with running := [] }) hstate]
    exact hstop.error e

theorem Invariant.continue (continuation : Continuation ε) (hcall : s.calls[k]? = some call)
    (hends : Ends call) :
    Invariant { s with running := [], continuations := s.continuations ++ [continuation] } := by
  have hne : s.continuations ++ [continuation] ≠ [] := List.append_ne_nil_of_right_ne_nil _ nofun
  exact { h with
    last := .inl rfl
    ending := fun _ _ => .inr hne
    continued := fun _ => ⟨call, List.mem_of_getElem? hcall, hends⟩
    closed := fun hreadable => ⟨(h.closed hreadable).1, nofun⟩ }

theorem Invariant.finish {failed : Option (Option ε)}
    (hok : Waits s (.finish k failed : Event α β ε)) (hnext : s.finish k failed = some s') :
    Invariant s' := by
  unfold WritableStream.finish at hnext
  split at hnext
  swap
  · cases hnext
  rename_i hk
  have hfailed : ∀ e, failed = some e → ∀ call, s.calls[k]? = some call → call ≠ .start →
      s.failure.isSome = true := by
    intro e he call hcall hne
    refine hok e he fun c hc => ?_
    rw [hcall] at hc
    rw [← Option.some.inj hc]
    exact hne
  rw [h.erase hk] at hnext
  dsimp only at hnext
  split at hnext
  · rename_i e hcall
    rw [← Option.some.inj hnext]
    exact h.finish_start e hk hcall
  · rename_i hcall
    rw [← Option.some.inj hnext]
    have hcontinue := h.continue .close hcall (.inl rfl)
    exact { hcontinue with
      closed := fun _ => ⟨⟨.close, List.mem_of_getElem? hcall, rfl⟩, nofun⟩ }
  · rename_i reason hcall
    rw [← Option.some.inj hnext]
    exact h.continue (.abort reason) hcall (.inr rfl)
  · rename_i e hstart
    rw [← Option.some.inj hnext]
    obtain ⟨call, hcall⟩ := h.getElem_running hk
    have hfailure : s.failure.isSome = true := by
      refine hfailed e rfl call hcall ?_
      rintro rfl
      exact hstart hcall
    rw [fail_of_isSome (s := { s with running := [] }) hfailure]
    exact h.stop_failed hfailure
  · rename_i hclose habort
    rw [← Option.some.inj hnext]
    obtain ⟨call, hcall⟩ := h.getElem_running hk
    cases call with
    | start => exact h.stop_start hk hcall
    | write chunk => exact h.stop fun _ hends => absurd hends (h.not_ends hk hcall rfl)
    | close => exact (hclose hcall).elim
    | abort reason => exact (habort reason hcall).elim

theorem Invariant.resume (hok : Waits s (.resume : Event α β ε)) (hnext : s.resume = some s') :
    Invariant s' := by
  unfold WritableStream.resume at hnext
  unfold Waits at hok
  split at hnext
  · rename_i continuations heq
    rw [← Option.some.inj hnext]
    have hends := h.continued (by rw [heq]; nofun)
    simp only [heq] at hok
    exact { h with
      failed := fun e he => absurd (hok.symm.trans he) nofun
      ending := nofun
      left := fun _ => .inr hends
      continued := fun _ => hends }
  · rename_i reason continuations heq
    rw [← Option.some.inj hnext]
    have hends := h.continued (by rw [heq]; nofun)
    simp only [heq] at hok
    exact { h with
      failed := fun e he => ⟨rfl, (hok e he).symm⟩
      ending := nofun
      left := fun _ => .inr hends
      continued := fun _ => hends }
  · cases hnext

variable {value : β}

theorem Invariant.output (hk : k ∈ s.running) :
    Invariant { s with outputs := s.outputs ++ [(k, value)] } := by
  have hpos : 0 < s.calls.length := List.length_pos_iff.2 h.calls_ne_nil
  have hlast := h.eq_last hk
  exact { h with
    inOrder := by
      refine List.pairwise_append.2 ⟨h.inOrder, List.pairwise_singleton .., fun a ha b hb => ?_⟩
      rw [List.mem_singleton.1 hb]
      have hlt := h.outputs a ha
      show a.1 ≤ k
      omega
    outputs := by
      intro output houtput
      rcases List.mem_append.1 houtput with hold | hnew
      · exact h.outputs output hold
      · rw [List.mem_singleton.1 hnew]
        show k < s.calls.length
        omega }

theorem Invariant.not_closed (hk : k ∈ s.running) (hcall : s.calls[k]? = some call)
    (hemits : call.isWrite = true ∨ call.isClose = true) : s.readable ≠ .closed := by
  intro hreadable
  obtain ⟨⟨c, hc, hclose⟩, hrunning⟩ := h.closed hreadable
  rcases hemits with hwrite | hcallclose
  · exact h.not_ends hk hcall hwrite ⟨c, hc, .inl hclose⟩
  · rw [hrunning k hk call hcall] at hcallclose
    cases hcallclose

theorem Invariant.emit (hnext : s.emit k value = some s') : Invariant s' := by
  unfold WritableStream.emit at hnext
  have hone : ∀ call, k ∈ s.running → s.calls[k]? = some call →
      (call.isWrite = true ∨ call.isClose = true) →
      (match s.readable with
        | .readable => some { s with outputs := s.outputs ++ [(k, value)] }
        | .closed => some { s with lost := s.lost ++ [(k, value)] }
        | .terminated => some s) = some s' → Invariant s' := by
    intro call hk hcall hemits hmatch
    split at hmatch
    · rw [← Option.some.inj hmatch]
      exact h.output hk
    · rename_i hreadable
      exact absurd hreadable (h.not_closed hk hcall hemits)
    · rw [← Option.some.inj hmatch]
      exact h
  split at hnext
  · rename_i hrunning hcall
    exact hone _ (of_decide_eq_true hrunning) hcall (.inl rfl) hnext
  · rename_i hrunning hcall
    exact hone _ (of_decide_eq_true hrunning) hcall (.inr rfl) hnext
  · cases hnext

theorem Invariant.terminate {side : ReadableSide} (hside : side = .closed → s.readable = .closed) :
    Invariant { s with readable := side } :=
  { h with closed := fun hclosed => h.closed (hside hclosed) }

theorem Invariant.writerClose (hok : s.MayClose) : Invariant s.writerClose := by
  unfold WritableStream.writerClose
  unfold MayClose at hok
  split
  · rename_i hstate
    rw [if_pos hstate] at hok
    exact h.beginClose hstate hok.1 hok.2
  · rename_i hstate
    rw [if_neg hstate] at hok
    rw [note_of_none hok]
    exact h

theorem Invariant.close (hok : s.MayClose) (hnext : s.close = some s') : Invariant s' := by
  unfold WritableStream.close at hnext
  unfold MayClose at hok
  split at hnext
  · cases hnext
  · rename_i hstate
    rw [if_pos hstate] at hok
    rw [← Option.some.inj hnext]
    exact h.beginClose hstate hok.1 hok.2
  · rename_i hstate
    rw [if_neg hstate] at hok
    rw [← Option.some.inj hnext, note_of_none hok]
    exact h

theorem Invariant.step {event : Event α β ε} (hok : Waits s event)
    (hnext : WritableStream.step s event = some s') : Invariant s' := by
  cases event with
  | getWriter =>
    rw [WritableStream.step] at hnext
    split at hnext
    · cases hnext
    · rw [← Option.some.inj hnext]
      exact { h with }
  | releaseLock =>
    rw [WritableStream.step, ofWriter] at hnext
    split at hnext
    · rw [← Option.some.inj hnext]
      exact { h with }
    · cases hnext
  | write chunk =>
    rw [WritableStream.step, ofWriter] at hnext
    split at hnext
    · rw [← Option.some.inj hnext]
      exact h.write hok
    · cases hnext
  | writerClose =>
    rw [WritableStream.step, ofWriter] at hnext
    split at hnext
    · rw [← Option.some.inj hnext]
      exact h.writerClose hok
    · cases hnext
  | writerAbort reason =>
    rw [WritableStream.step, ofWriter] at hnext
    split at hnext
    · rw [← Option.some.inj hnext]
      exact h.beginAbort reason hok
    · cases hnext
  | close => exact h.close hok hnext
  | abort reason =>
    rw [WritableStream.step] at hnext
    split at hnext
    · cases hnext
    · rw [← Option.some.inj hnext]
      exact h.beginAbort reason hok
  | finish k failed => exact h.finish hok hnext
  | resume => exact h.resume hok hnext
  | controllerError e =>
    rw [← Option.some.inj hnext]
    exact h.error e
  | emit k value => exact h.emit hnext
  | terminate =>
    rw [← Option.some.inj hnext]
    refine h.terminate fun hside => ?_
    cases hreadable : s.readable with
    | readable => rw [hreadable] at hside; cases hside
    | terminated => rw [hreadable] at hside; cases hside
    | closed => rfl

theorem Invariant.after {i j : ℕ} {a b : SinkCall α ε} (hij : i < j) (ha : s.calls[i]? = some a)
    (hb : s.calls[j]? = some b) (hends : Ends a) : b.isWrite = false := by
  obtain ⟨hi, rfl⟩ := List.getElem?_eq_some_iff.1 ha
  obtain ⟨hj, rfl⟩ := List.getElem?_eq_some_iff.1 hb
  exact List.pairwise_iff_getElem.1 h.nothingAfter i j hi hj hij hends

theorem Invariant.serialises : SerialisesSink s where
  __ := h
  started := by
    rintro ⟨call, hcall, hwrite⟩ hzero
    have hstart : s.calls[0]? = some .start := by
      obtain ⟨calls, hcalls, -⟩ := h.head
      rw [hcalls]
      rfl
    rw [h.only_start hzero hstart, List.mem_singleton] at hcall
    rw [hcall] at hwrite
    cases hwrite
  serial := by
    rcases h.last with hnone | hone
    · rw [hnone]
      exact Nat.zero_le 1
    · rw [hone]
      exact le_rfl
  closesLast := by
    rintro ⟨c, hc, hclose⟩ k hk call hcall
    by_contra htrue
    rw [Bool.not_eq_false] at htrue
    exact h.not_ends hk hcall htrue ⟨c, hc, .inl hclose⟩
  flushLast := by
    refine h.inOrder.imp fun {a b} hle call hcall hclose next hnext => ?_
    rcases Nat.lt_or_eq_of_le hle with hlt | heq
    · exact h.after hlt hcall hnext (.inl hclose)
    · rw [heq, hnext] at hcall
      rw [Option.some.inj hcall]
      cases call with
      | close => rfl
      | start => cases hclose
      | write chunk => cases hclose
      | abort reason => cases hclose

end Step

theorem invariant_initial : Invariant (initial : WritableStream α β ε) where
  head := ⟨[], rfl, List.not_mem_nil⟩
  last := .inr rfl
  order := rfl
  closesOnce := Nat.zero_le 1
  failed := nofun
  rejects := nofun
  nothingAfter := List.pairwise_singleton ..
  ending := fun _ _ => .inl nofun
  left := fun hne => absurd rfl hne
  continued := fun hne => absurd rfl hne
  inOrder := List.Pairwise.nil
  outputs := nofun
  closed := nofun
  complete := rfl

/-- In every run that waits for the sink, the sink is served one call at a time. -/
theorem serialisesSink {s : WritableStream α β ε} (h : machine.ReachableIf Waits s) :
    SerialisesSink s := by
  refine Invariant.serialises (Machine.ReachableIf.invariant ?_ ?_ h)
  · rintro s rfl
    exact invariant_initial
  · intro s event s' hs hok hnext
    exact hs.step hok hnext

theorem mayWrite_of_rests (hstate : s.state = .writable) (h : s.Rests) : s.MayWrite := by
  unfold MayWrite
  rw [if_pos hstate]
  exact h

theorem mayClose_of_rests (hstate : s.state = .writable) (h : s.Rests) : s.MayClose := by
  unfold MayClose
  rw [if_pos hstate]
  exact h

/-- A `TransformStream` whose writer waits for two transforms and the flush. -/
theorem serialisesSink_two :
    ∃ s : WritableStream ℕ ℕ ℕ, machine.exec initial [.getWriter, .finish 0 none, .write 1,
        .emit 1 10, .emit 1 11, .finish 1 none, .write 2, .emit 2 20, .finish 2 none, .writerClose,
        .emit 3 30, .finish 3 none, .resume] = some s ∧
      s.outputs.map Prod.snd = [10, 11, 20, 30] ∧ s.state = .closed ∧ SerialisesSink s := by
  have hrun : ∃ s : WritableStream ℕ ℕ ℕ, machine.exec initial [.getWriter, .finish 0 none,
      .write 1, .emit 1 10, .emit 1 11, .finish 1 none, .write 2, .emit 2 20, .finish 2 none,
      .writerClose, .emit 3 30, .finish 3 none, .resume] = some s ∧
      s.outputs.map Prod.snd = [10, 11, 20, 30] ∧ s.state = .closed ∧
      machine.GuardedRun Waits initial [.getWriter, .finish 0 none, .write 1, .emit 1 10,
        .emit 1 11, .finish 1 none, .write 2, .emit 2 20, .finish 2 none, .writerClose, .emit 3 30,
        .finish 3 none, .resume] s :=
    ⟨_, rfl, rfl, rfl, .cons trivial rfl <| .cons nofun rfl <|
      .cons (mayWrite_of_rests rfl ⟨rfl, rfl⟩) rfl <| .cons trivial rfl <| .cons trivial rfl <|
      .cons nofun rfl <| .cons (mayWrite_of_rests rfl ⟨rfl, rfl⟩) rfl <| .cons trivial rfl <|
      .cons nofun rfl <| .cons (mayClose_of_rests rfl ⟨rfl, rfl⟩) rfl <| .cons trivial rfl <|
      .cons nofun rfl <| .cons rfl rfl <| .nil _⟩
  obtain ⟨s, hexec, houtputs, hstate, hrun⟩ := hrun
  exact ⟨s, hexec, houtputs, hstate, serialisesSink ⟨_, _, rfl, hrun⟩⟩

/-- Two writes in a row: both calls of the sink run at the same time. -/
theorem writes_overlap : ¬ ∀ s : WritableStream ℕ ℕ ℕ, machine.Reachable s → SerialisesSink s := by
  intro h
  have hrun : ∃ s : WritableStream ℕ ℕ ℕ, machine.exec initial [.finish 0 none, .getWriter,
      .write 1, .write 2] = some s ∧ s.running = [1, 2] := ⟨_, rfl, rfl⟩
  obtain ⟨s, hexec, hrunning⟩ := hrun
  have hserial := (h s (Machine.reachable_of_exec rfl hexec)).serial
  rw [hrunning] at hserial
  exact absurd hserial (by decide)

end WritableStream

end QuickBeam.Streams
