import QuickBeam.Lib.Transition

/-!
# Async work (`napi/async_work.zig`)

A work is queued by the JS thread, executed by a thread of its own and completed by the JS thread
again, in the main loop or inside a promise wait.  The steps are the atomic accesses of the source;
several runners are possible because nothing stops an addon from queueing a work twice.  `history`
records what has happened to the work.

The runner overwrites the status that a successful cancellation has set, and the two loops disagree
on who releases a completed work, so the life cycle is kept exactly in the runs of
`AsyncWork.Orderly` (`AsyncWork.lifeCycle`).
-/

namespace QuickBeam.Napi

open QuickBeam.Lib

/-! ### The work -/

inductive AsyncStatus where
  | pending
  | started
  | completed
  | cancelled
deriving DecidableEq

/-- The status that `complete` is called with. -/
inductive NapiStatus where
  | ok
  | cancelled
deriving DecidableEq

/-- Where an `asyncWorkRunner` is: before each of its four steps, or returned. -/
inductive Runner where
  | spawned
  | started
  | executed
  | settled
  | returned
deriving DecidableEq

inductive Effect where
  | queued
  | cancelled
  | executed
  | completed (status : NapiStatus)
  | released
deriving DecidableEq

def Effect.isCall : Effect → Bool
  | .executed => true
  | .completed _ => true
  | _ => false

/-- The work with its runners, the last one first, and its `napi_async_complete` messages.
`complete` and `rd` tell whether the callback and the runtime data are there. -/
structure AsyncWork where
  complete : Bool
  rd : Bool
  status : AsyncStatus
  thread : Bool
  runners : List Runner
  messages : ℕ
  history : List Effect
deriving DecidableEq

namespace AsyncWork

def create (complete rd : Bool) : AsyncWork := ⟨complete, rd, .pending, false, [], 0, []⟩

def record (w : AsyncWork) (effects : List Effect) : AsyncWork :=
  { w with history := w.history ++ effects }

def queue (w : AsyncWork) : AsyncWork :=
  if w.rd then { w with thread := true, runners := .spawned :: w.runners }.record [.queued] else w

def runnerStep (w : AsyncWork) (i : ℕ) : Option AsyncWork :=
  match w.runners[i]? with
  | some .spawned => some { w with status := .started, runners := w.runners.set i .started }
  | some .started => some ({ w with runners := w.runners.set i .executed }.record [.executed])
  | some .executed =>
    let status := if w.status = .started then .completed else w.status
    some { w with status, runners := w.runners.set i .settled }
  | some .settled =>
    let messages := if w.rd then w.messages + 1 else w.messages
    some { w with messages, runners := w.runners.set i .returned }
  | _ => none

def cancel (w : AsyncWork) : AsyncWork :=
  if w.status = .pending then { w with status := .cancelled }.record [.cancelled] else w

/-- `deinit` waits for the thread that was spawned last. -/
def deinit (w : AsyncWork) : Option AsyncWork :=
  if w.thread ∧ w.runners.head? ≠ some .returned then none
  else some ({ w with thread := false }.record [.released])

def delete (w : AsyncWork) : Option AsyncWork :=
  if w.status = .started ∧ ¬ w.thread then some w else w.deinit

def callComplete (w : AsyncWork) (deletes : Bool) : Option AsyncWork :=
  if w.complete then
    let status := if w.status = .cancelled then .cancelled else .ok
    let w := w.record [.completed status]
    if deletes then w.delete else some w
  else some w

/-- `napi_async_complete` inside `await_promise`. -/
def completeWait (w : AsyncWork) (deletes : Bool) : Option AsyncWork :=
  match w.messages with
  | 0 => none
  | messages + 1 => { w with messages }.callComplete deletes

/-- `napi_async_complete` in the main loop. -/
def completeMain (w : AsyncWork) (deletes : Bool) : Option AsyncWork :=
  (w.completeWait deletes).bind deinit

/-! ### Runs -/

inductive Step where
  | queue
  | run (i : ℕ)
  | cancel
  | delete
  | completeMain (deletes : Bool)
  | completeWait (deletes : Bool)
deriving DecidableEq

def step (w : AsyncWork) : Step → Option AsyncWork
  | .queue => some w.queue
  | .run i => w.runnerStep i
  | .cancel => some w.cancel
  | .delete => w.delete
  | .completeMain deletes => w.completeMain deletes
  | .completeWait deletes => w.completeWait deletes

def machine : Machine AsyncWork Step where
  init w := ∃ complete rd, w = create complete rd
  step := step

/-! ### The life cycle -/

/-- The calls of `execute` and `complete`, in order. -/
def calls (w : AsyncWork) : List Effect := w.history.filter Effect.isCall

/-- The calls that `complete` gets at all. -/
def completion (w : AsyncWork) (status : NapiStatus) : List Effect :=
  if w.complete then [.completed status] else []

def Finished (w : AsyncWork) : Prop :=
  .queued ∈ w.history ∧ (∀ runner ∈ w.runners, runner = .returned) ∧ w.messages = 0

structure LifeCycle (w : AsyncWork) : Prop where
  /-- After a successful cancellation, `execute` is never called. -/
  cancelled : .cancelled ∈ w.history → w.calls <+: w.completion .cancelled ∧
    (w.Finished → w.calls = w.completion .cancelled)
  /-- Otherwise `execute` is called once, then `complete` once. -/
  executed : .cancelled ∉ w.history → w.calls <+: .executed :: w.completion .ok ∧
    (w.Finished → w.calls = .executed :: w.completion .ok)
  unqueued : .queued ∉ w.history → w.calls = []
  released : w.history.count .released ≤ 1 ∧ (w.Finished → w.history.count .released = 1)

/-- A cancellation succeeds only on a work that is never queued, a work is queued once and deleted
only when it was not queued, and its `complete` deletes it exactly when a promise wait calls it. -/
def Orderly (w : AsyncWork) : Step → Prop
  | .queue => w.history = []
  | .run _ => True
  | .cancel => w.status = .pending → w.history = []
  | .delete => .queued ∉ w.history ∧ .released ∉ w.history
  | .completeMain deletes => ¬ (w.complete ∧ deletes)
  | .completeWait deletes => w.complete ∧ deletes

inductive Stage : AsyncWork → Prop
  | created (complete rd : Bool) : Stage (create complete rd)
  | deleted (complete rd : Bool) : Stage ⟨complete, rd, .pending, false, [], 0, [.released]⟩
  | cancelled (complete rd : Bool) : Stage ⟨complete, rd, .cancelled, false, [], 0, [.cancelled]⟩
  | cancelledDeleted (complete rd : Bool) :
      Stage ⟨complete, rd, .cancelled, false, [], 0, [.cancelled, .released]⟩
  | spawned (complete : Bool) : Stage ⟨complete, true, .pending, true, [.spawned], 0, [.queued]⟩
  | started (complete : Bool) : Stage ⟨complete, true, .started, true, [.started], 0, [.queued]⟩
  | executed (complete : Bool) :
      Stage ⟨complete, true, .started, true, [.executed], 0, [.queued, .executed]⟩
  | settled (complete : Bool) :
      Stage ⟨complete, true, .completed, true, [.settled], 0, [.queued, .executed]⟩
  | returned (complete : Bool) :
      Stage ⟨complete, true, .completed, true, [.returned], 1, [.queued, .executed]⟩
  | done (complete : Bool) :
      Stage ⟨complete, true, .completed, false, [.returned], 0, [.queued, .executed] ++
        (if complete then [.completed .ok] else []) ++ [.released]⟩

variable {w : AsyncWork}

theorem runnerStep_none (h : w.runners = []) (i : ℕ) : w.runnerStep i = none := by
  rw [runnerStep, h]
  rfl

variable {w' : AsyncWork}

theorem runnerStep_singleton {runner : Runner} (h : w.runners = [runner]) {i : ℕ}
    (hstep : w.runnerStep i = some w') : i = 0 := by
  by_contra hne
  have hget : w.runners[i]? = none := by
    rw [h]
    refine List.getElem?_eq_none ?_
    rw [List.length_singleton]
    omega
  rw [runnerStep, hget] at hstep
  cases hstep

theorem Stage.runnerStep (h : Stage w) {i : ℕ} (hstep : w.runnerStep i = some w') : Stage w' := by
  cases h with
  | created | deleted | cancelled | cancelledDeleted =>
    rw [runnerStep_none rfl] at hstep
    cases hstep
  | spawned complete =>
    cases runnerStep_singleton rfl hstep
    rw [← Option.some.inj hstep]
    exact .started complete
  | started complete =>
    cases runnerStep_singleton rfl hstep
    rw [← Option.some.inj hstep]
    exact .executed complete
  | executed complete =>
    cases runnerStep_singleton rfl hstep
    rw [← Option.some.inj hstep]
    exact .settled complete
  | settled complete =>
    cases runnerStep_singleton rfl hstep
    rw [← Option.some.inj hstep]
    exact .returned complete
  | returned complete | done complete =>
    cases runnerStep_singleton rfl hstep
    cases hstep

theorem Stage.delete (h : Stage w) (hqueued : .queued ∉ w.history)
    (hreleased : .released ∉ w.history) (hstep : w.delete = some w') : Stage w' := by
  cases h with
  | created complete rd =>
    rw [← Option.some.inj hstep]
    exact .deleted complete rd
  | cancelled complete rd =>
    rw [← Option.some.inj hstep]
    exact .cancelledDeleted complete rd
  | deleted | cancelledDeleted => simp at hreleased
  | spawned | started | executed | settled | returned | done => simp at hqueued

variable {deletes : Bool}

/-- A completion releases the work once when the loop that processes it and the callback agree. -/
theorem Stage.completeMain (h : Stage w) (hdeletes : ¬ (w.complete ∧ deletes))
    (hstep : w.completeMain deletes = some w') : Stage w' := by
  cases h with
  | returned complete =>
    have hdone := Stage.done complete
    cases complete <;> cases deletes
    · rwa [← Option.some.inj hstep]
    · rwa [← Option.some.inj hstep]
    · rwa [← Option.some.inj hstep]
    · exact absurd ⟨rfl, rfl⟩ hdeletes
  | created | deleted | cancelled | cancelledDeleted | spawned | started | executed | settled
  | done => cases hstep

theorem Stage.completeWait (h : Stage w) (hdeletes : w.complete ∧ deletes)
    (hstep : w.completeWait deletes = some w') : Stage w' := by
  cases h with
  | returned complete =>
    have hdone := Stage.done complete
    have hcomplete : complete = true := hdeletes.1
    rw [hcomplete] at hstep hdone
    rw [hdeletes.2] at hstep
    rwa [← Option.some.inj hstep]
  | created | deleted | cancelled | cancelledDeleted | spawned | started | executed | settled
  | done => cases hstep

theorem Stage.step {w w' : AsyncWork} (h : Stage w) {e : Step} (hok : Orderly w e)
    (hstep : step w e = some w') : Stage w' := by
  cases e with
  | queue =>
    have hhistory : w.history = [] := hok
    cases h with
    | created complete rd =>
      rw [← Option.some.inj hstep]
      cases rd
      · exact .created complete false
      · exact .spawned complete
    | deleted | cancelled | cancelledDeleted | spawned | started | executed | settled | returned
    | done => simp at hhistory
  | run i => exact h.runnerStep hstep
  | cancel =>
    have hcancel : w.cancel = w' := Option.some.inj hstep
    by_cases hpending : w.status = .pending
    · have hhistory : w.history = [] := hok hpending
      cases h with
      | created complete rd =>
        rw [← hcancel]
        exact .cancelled complete rd
      | deleted | cancelled | cancelledDeleted | spawned | started | executed | settled | returned
      | done => simp at hhistory
    · rw [AsyncWork.cancel, if_neg hpending] at hcancel
      rwa [← hcancel]
  | delete => exact h.delete hok.1 hok.2 hstep
  | completeMain deletes => exact h.completeMain hok hstep
  | completeWait deletes => exact h.completeWait hok hstep

theorem Stage.phases (h : Stage w) : LifeCycle w := by
  cases h with
  | created complete rd =>
    refine ⟨?_, ?_, ?_, ?_⟩ <;> simp [create, calls, Finished]
  | deleted complete rd =>
    refine ⟨?_, ?_, ?_, ?_⟩ <;> simp [calls, Finished, Effect.isCall]
  | cancelled complete rd =>
    refine ⟨?_, ?_, ?_, ?_⟩ <;> simp [calls, Finished, Effect.isCall]
  | cancelledDeleted complete rd =>
    refine ⟨?_, ?_, ?_, ?_⟩ <;> simp [calls, Finished, Effect.isCall]
  | spawned complete =>
    refine ⟨?_, ?_, ?_, ?_⟩ <;> simp [calls, Finished, Effect.isCall]
  | started complete =>
    refine ⟨?_, ?_, ?_, ?_⟩ <;> simp [calls, Finished, Effect.isCall]
  | executed complete =>
    refine ⟨?_, ?_, ?_, ?_⟩ <;> simp [calls, Finished, List.filter_cons, Effect.isCall]
  | settled complete =>
    refine ⟨?_, ?_, ?_, ?_⟩ <;> simp [calls, Finished, List.filter_cons, Effect.isCall]
  | returned complete =>
    refine ⟨?_, ?_, ?_, ?_⟩ <;> simp [calls, Finished, List.filter_cons, Effect.isCall]
  | done complete =>
    cases complete <;> refine ⟨?_, ?_, ?_, ?_⟩ <;>
      simp [calls, completion, Finished, List.filter_cons, Effect.isCall]

/-- The life cycle of a work, in every state of its orderly runs. -/
theorem lifeCycle {w : AsyncWork} (h : machine.ReachableIf Orderly w) : LifeCycle w := by
  refine Stage.phases (Machine.ReachableIf.invariant ?_ ?_ h)
  · rintro w ⟨complete, rd, rfl⟩
    exact .created complete rd
  · intro w e w' hw hok hstep
    exact hw.step hok hstep

/-- A work that is queued, executed and completed by the main loop. -/
theorem lifeCycle_completed :
    ∃ w, machine.exec (create true true)
        [.queue, .run 0, .run 0, .run 0, .run 0, .completeMain false] = some w ∧
      w.history = [.queued, .executed, .completed .ok, .released] ∧ LifeCycle w := by
  have hrun : ∃ w, machine.exec (create true true)
      [.queue, .run 0, .run 0, .run 0, .run 0, .completeMain false] = some w ∧
      w.history = [.queued, .executed, .completed .ok, .released] ∧
      machine.GuardedRun Orderly (create true true)
        [.queue, .run 0, .run 0, .run 0, .run 0, .completeMain false] w :=
    ⟨_, rfl, rfl, .cons rfl rfl <| .cons trivial rfl <| .cons trivial rfl <|
      .cons trivial rfl <| .cons trivial rfl <| .cons (fun hboth => by cases hboth.2) rfl <| .nil _⟩
  obtain ⟨w, hexec, hhistory, hrun⟩ := hrun
  exact ⟨w, hexec, hhistory, lifeCycle ⟨_, _, ⟨true, true, rfl⟩, hrun⟩⟩

/-- The runner overwrites the status of a cancellation that has succeeded. -/
theorem cancelled_executed : ¬ ∀ w, machine.Reachable w → LifeCycle w := by
  intro h
  have hrun : ∃ w, machine.exec (create true true) [.queue, .cancel, .run 0, .run 0] = some w ∧
      .cancelled ∈ w.history ∧ w.calls = [.executed] ∧
      w.completion .cancelled = [.completed .cancelled] := by
    refine ⟨_, rfl, ?_, rfl, rfl⟩
    decide
  obtain ⟨w, hexec, hcancelled, hcalls, hcompletion⟩ := hrun
  have hlife := h w (Machine.reachable_of_exec ⟨true, true, rfl⟩ hexec)
  have hfront := (hlife.cancelled hcancelled).1
  rw [hcalls, hcompletion] at hfront
  exact absurd hfront (by decide)

end AsyncWork

end QuickBeam.Napi
