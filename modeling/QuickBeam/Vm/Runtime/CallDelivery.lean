import QuickBeam.Vm.Runtime.CallDepth

/-!
# Delivery to callers

What a boundary gives to its caller is compared with an ordinary call: the caller is put on the
list, and the callee returns or throws (`returnTo`, `throwTo`).  The end of an array iteration and
a throw out of `Object.assign` read the stack of their caller, which only a frame has; every other
boundary delivers to any caller that it can have (`caller_delivery`).
-/

set_option linter.unusedSectionVars false

namespace QuickBeam.Vm.Runtime.Calls

open QuickBeam.Lib QuickBeam.Vm.Program

section Ordinary

variable {W : Type} (env : Env W)

/-! ### Ordinary calls -/

def returnTo (value : Value) (caller : Caller) (s : State W) (tail : Bool) : Next W :=
  if tail then .return_ value s
  else returnValue env value { s with callers := caller :: s.callers, depth := s.depth + 1 }

def throwTo (reason : Value) (caller : Caller) (s : State W) (trace : List TraceFrame) : Next W :=
  unwindCaller env reason (caller :: s.callers)
    { s with callers := caller :: s.callers, depth := s.depth + 1 } trace

def handOver (promise : ℕ) (caller : Caller) (mode : AsyncMode) (s : State W) : Next W :=
  match mode with
  | .push => returnTo env (.promise promise) caller s false
  | .return_ => .return_ (.promise promise) s
  | .reaction => returnTo env (.promise promise) caller s false
  | .executor => returnTo env (.promise promise) caller s false
  | .thenable => .idle s
  | .detached => .idle s

/-! ### Boundaries that end -/

/-- The code: a boundary, or the native code behind it, ends with a value. -/
def ends (value : Value) (boundary : Caller) (s : State W) : Next W :=
  match boundary with
  | .native _ _ => finish env value boundary s
  | .objectAssign _ _ _ _ => finish env value boundary s
  | .iterator _ _ _ _ _ => finish env value boundary s
  | .async promise caller _ mode =>
    deliver env promise caller mode { s with world := env.settle s.world promise (.ok value) }
  | _ => completeCallResult env value boundary s false

/-- What an ordinary call would do. -/
def delivery (value : Value) (boundary : Caller) (s : State W) : Next W :=
  match boundary with
  | .native caller tail => returnTo env value caller s tail
  | .objectAssign target caller _ tail => returnTo env target caller s tail
  | .iterator false promise caller _ tail =>
    returnTo env (.promise promise) caller
      { s with world := env.aggregateInto s.world promise } tail
  | .iterator true target caller _ tail => returnTo env (.reference target) caller s tail
  | .accessor true frame _ => returnTo env value (.frame frame) s false
  -- The value of a setter is not used.
  | .accessor false frame _ => .run frame s
  | .constructor_ instance_ caller _ =>
    returnTo env (if constructorObject value then value else instance_) caller s false
  | .promiseExecutor promise caller _ tail => returnTo env (.promise promise) caller s tail
  | .async promise caller _ mode =>
    handOver env promise caller mode { s with world := env.settle s.world promise (.ok value) }
  -- The event loop is the caller of the others, and of a frame there is no boundary.
  | boundary => completeCallResult env value boundary s false

/-- The code: a boundary throws, with `unwind` for the callers. -/
def raises (unwind : List TraceFrame → Next W) (reason : Value) (boundary : Caller) (s : State W)
    (trace : List TraceFrame) : Next W :=
  match boundary with
  | .async promise caller _ mode =>
    deliver env promise caller mode
      { s with world := env.settle s.world promise (.error (env.thrown reason trace)) }
  | boundary => throwFromBoundary env unwind reason boundary s trace

/-- What a throw out of an ordinary call would do. -/
def thrownDelivery (reason : Value) (boundary : Caller) (s : State W) (trace : List TraceFrame) :
    Next W :=
  match boundary with
  | .native caller _ => throwTo env reason caller s trace
  | .objectAssign _ caller _ _ => throwTo env reason caller s trace
  | .accessor _ frame _ => throwTo env reason (.frame frame) s trace
  | .constructor_ _ caller _ => throwTo env reason caller s trace
  | .iterator true _ caller _ _ => throwTo env reason caller s trace
  -- A promise is rejected, and the caller has it as its value.
  | .iterator false promise caller _ tail =>
    let (reason, world) := env.materialize s.world (env.thrown reason trace)
    returnTo env (.promise promise) caller
      { s with world := env.settle world promise (.error reason) } tail
  | .promiseExecutor promise caller _ tail =>
    returnTo env (.promise promise) caller
      { s with world := env.settle s.world promise (.error (env.thrown reason trace)) } tail
  | .async promise caller _ mode =>
    handOver env promise caller mode
      { s with world := env.settle s.world promise (.error (env.thrown reason trace)) }
  | boundary =>
    throwFromBoundary env (unwindCaller env reason s.callers s) reason boundary s trace

/-! ### The property -/

/-- No clause and no field was missing. -/
def Sound : Next W → Prop
  | .crash _ => False
  | _ => True

/-- The boundary delivers as an ordinary call would, whatever native code did to the world. -/
structure Delivered (boundary : Caller) (s : State W) : Prop where
  value : ∀ value world,
    ends env value boundary { s with world } = delivery env value boundary { s with world }
  completes : ∀ value world, Sound (ends env value boundary { s with world })
  throws : ∀ reason trace world,
    raises env (unwindCaller env reason s.callers { s with world }) reason boundary
        { s with world } trace =
      thrownDelivery env reason boundary { s with world } trace
  unwinds : ∀ unwind : List TraceFrame → Next W, (∀ trace, Sound (unwind trace)) →
    ∀ reason trace world, Sound (raises env unwind reason boundary { s with world } trace)

/-- An array iteration or `Object.assign` was called by a frame. -/
def OfFrame : Caller → Prop
  | .native caller _ => isFrame caller = true
  | .objectAssign _ caller _ _ => isFrame caller = true
  | _ => True

/-- A boundary ends, in the state `s` that is left when it is off the list of callers. -/
inductive Ends (boundary : Caller) : State W → Next W → Prop
  /-- Its native code finishes. -/
  | resume {value : Option Value} {s : State W} : Ends boundary s (.resume boundary value s)
  /-- A builtin that it called completes or raises. -/
  | dispatch {s : State W} {tail : Bool} : Ends boundary s (.dispatch boundary s tail)
  | throwFrom {reason : Value} {s : State W} : Ends boundary s (.throwFrom reason boundary s)
  /-- A function that it called returns or throws. -/
  | return_ {value : Value} {s : State W} {rest : List Caller} :
    s.callers = boundary :: rest →
      Ends boundary { s with callers := rest, depth := depthAfter s.depth boundary }
        (.return_ value s)
  | run {frame : Frame} {s : State W} {rest : List Caller} :
    s.callers = boundary :: rest →
      Ends boundary { s with callers := rest, depth := depthAfter s.depth boundary }
        (.run frame s)

end Ordinary

variable {W : Type} {env : Env W} {strict : Prop} {entry : ℕ}

/-! ### Ordinary calls and completion -/

variable {caller : Caller} {d : ℕ} {rest : List Caller} {s : State W}

theorem returnValue_cons (h : Sits strict entry rest d caller) (value : Value)
    (hcallers : s.callers = caller :: rest) : returnValue env value s =
      completeCallResult env value caller
        { s with callers := rest, depth := depthAfter s.depth caller } false := by
  unfold returnValue
  rw [hcallers]
  cases caller with
  | none => exact absurd h not_false
  | async promise caller depth mode => exact absurd h not_false
  | _ => rfl

theorem returnTo_call (h : Sits strict entry s.callers s.depth caller) (value : Value) :
    returnTo env value caller s false = completeCallResult env value caller s false := by
  have hdepth : depthAfter (s.depth + 1) caller = s.depth := by
    have hafter := h.stands.depthAfter
    rwa [h.weight] at hafter
  show returnValue env value { s with callers := caller :: s.callers, depth := s.depth + 1 } = _
  rw [returnValue_cons h value rfl]
  dsimp only
  rw [hdepth]

theorem returnTo_eq (h : Sits strict entry s.callers s.depth caller) {tail : Bool}
    (ht : tail = true → isFrame caller = true) (value : Value) :
    returnTo env value caller s tail = completeCallResult env value caller s tail := by
  cases tail with
  | true =>
    cases caller with
    | frame frame => rfl
    | _ => exact absurd (ht rfl) Bool.false_ne_true
  | false => exact returnTo_call h value

theorem throwTo_eq (h : Sits strict entry s.callers s.depth caller) (reason : Value)
    (trace : List TraceFrame) : throwTo env reason caller s trace =
      throwFromBoundary env (unwindCaller env reason s.callers s) reason caller s trace := by
  have hdepth : depthAfter (s.depth + 1) caller = s.depth := by
    have hafter := h.stands.depthAfter
    rwa [h.weight] at hafter
  unfold throwTo
  rw [unwindCaller_cons h]
  dsimp only
  rw [hdepth]

variable {mode : AsyncMode}

theorem handOver_eq {promise : ℕ} (h : Delivers strict entry s.callers s.depth caller mode) :
    handOver env promise caller mode s = deliver env promise caller mode s := by
  cases mode with
  | push => exact returnTo_call h _
  | return_ => rfl
  | reaction =>
    obtain ⟨⟨promise', finally_, rfl⟩, hr⟩ := h
    have hsits : Sits strict entry s.callers s.depth (.reaction promise' s.depth finally_) :=
      ⟨rfl, hr⟩
    exact returnTo_call hsits _
  | executor =>
    obtain ⟨promise', caller', rfl, hc⟩ := h
    have hsits : Sits strict entry s.callers s.depth
        (.promiseExecutor promise' caller' s.depth false) := ⟨rfl, hc, rfl⟩
    exact returnTo_call hsits _
  | thenable => rfl
  | detached => rfl

/-! ### Nothing is missing -/

theorem continueAfterThenGetter_sound {continuation : Caller} (s : State W)
    (h : continuation = .none ∨ (isFrame continuation || isIterator continuation) = true) :
    Sound (continueAfterThenGetter continuation s) := by
  rcases h with rfl | h
  · trivial
  · cases continuation with
    | frame frame => trivial
    | iterator set target caller depth tail => trivial
    | _ => cases h

theorem completeCallResult_sound (h : Sits strict entry rest d caller) (value : Value)
    (s : State W) (tail : Bool) : Sound (completeCallResult env value caller s tail) := by
  induction caller generalizing value tail with
  | none => exact absurd h not_false
  | frame frame => cases tail <;> trivial
  | constructor_ instance_ caller depth ih => exact ih h.2.2 _ _
  | promiseExecutor promise caller depth tail' ih => exact ih h.2.1 _ _
  | thenGetter promise continuation depth =>
    exact continueAfterThenGetter_sound _ (h.2.imp And.left And.left)
  | async promise caller depth mode => exact absurd h not_false
  | _ => trivial

theorem deliver_sound {d promise : ℕ} (h : Delivers strict entry rest d caller mode) (s : State W) :
    Sound (deliver env promise caller mode s) := by
  cases mode with
  | push => exact completeCallResult_sound h _ _ _
  | return_ => trivial
  | reaction =>
    obtain ⟨⟨promise', finally_, rfl⟩, -⟩ := h
    trivial
  | executor =>
    obtain ⟨promise', caller', rfl, hc⟩ := h
    exact completeCallResult_sound hc _ _ _
  | thenable => trivial
  | detached => trivial

theorem doThrow_sound {unwind : List TraceFrame → Next W} (hu : ∀ trace, Sound (unwind trace))
    (caller : Caller) (h : isFrame caller = true) (reason : Value) (s : State W)
    (trace : List TraceFrame) (isCaller : Bool) :
    Sound (doThrow unwind reason caller s trace isCaller) := by
  cases caller with
  | frame frame =>
    unfold doThrow
    dsimp only
    split
    · trivial
    · exact hu _
  | _ => cases h

/-! ### Each boundary -/

theorem ends_delivery {s : State W} {boundary : Caller}
    (h : Stands strict entry s.callers s.depth boundary) (hk : OfFrame boundary) (value : Value) :
    ends env value boundary s = delivery env value boundary s := by
  cases boundary with
  | native caller tail =>
    cases caller with
    | frame frame => cases tail <;> rfl
    | _ => cases hk
  | accessor get frame depth => cases get <;> rfl
  | constructor_ instance_ caller depth => exact (returnTo_call h.2.2 _).symm
  | objectAssign target caller depth tail =>
    exact (returnTo_eq h.2.1 (fun ht => h.2.2 (.inr ht)) _).symm
  | iterator set target caller depth tail =>
    have hreturn : ∀ (world : W) (value : Value),
        returnTo env value caller { s with world } tail =
          completeCallResult env value caller { s with world } tail :=
      fun world value => returnTo_eq (s := { s with world }) h.2.1 h.2.2.2 value
    cases set with
    | false => exact (hreturn _ _).symm
    | true => exact (hreturn s.world _).symm
  | promiseExecutor promise caller depth tail =>
    have ht : tail = true → isFrame caller = true := fun ht => by
      rw [h.2.2] at ht
      cases ht
    exact (returnTo_eq h.2.1 ht _).symm
  | async promise caller depth mode =>
    obtain ⟨rfl, hdelivers⟩ := h
    exact (handOver_eq (s := { s with world := env.settle s.world promise (.ok value) })
      hdelivers).symm
  | _ => rfl

theorem ends_sound {s : State W} {boundary : Caller}
    (h : Stands strict entry s.callers s.depth boundary) (hk : OfFrame boundary) (value : Value) :
    Sound (ends env value boundary s) := by
  have hcomplete : Sits strict entry s.callers s.depth boundary →
      Sound (completeCallResult env value boundary s false) :=
    fun hsits => completeCallResult_sound hsits _ _ _
  cases boundary with
  | native caller tail =>
    cases caller with
    | frame frame => cases tail <;> trivial
    | _ => cases hk
  | objectAssign target caller depth tail => exact completeCallResult_sound h.2.1 _ _ _
  | iterator set target caller depth tail =>
    cases set with
    | false => exact completeCallResult_sound h.2.1 _ _ _
    | true => exact completeCallResult_sound h.2.1 _ _ _
  | async promise caller depth mode => exact deliver_sound h.2 _
  | _ => exact hcomplete h

theorem raises_thrownDelivery {s : State W} {boundary : Caller}
    (h : Stands strict entry s.callers s.depth boundary) (hk : OfFrame boundary) (reason : Value)
    (trace : List TraceFrame) :
    raises env (unwindCaller env reason s.callers s) reason boundary s trace =
      thrownDelivery env reason boundary s trace := by
  have hframe : ∀ frame : Frame, Sits strict entry s.callers s.depth (.frame frame) →
      throwTo env reason (.frame frame) s trace =
        doThrow (unwindCaller env reason s.callers s) reason (.frame frame) s trace true :=
    fun frame hsits => throwTo_eq hsits reason trace
  cases boundary with
  | native caller tail =>
    cases caller with
    | frame frame => exact (hframe frame h.1).symm
    | _ => cases hk
  | accessor get frame depth => exact (hframe frame h.2).symm
  | constructor_ instance_ caller depth =>
    cases caller with
    | frame frame => exact (hframe frame h.2.2).symm
    | _ => cases h.2.1
  | objectAssign target caller depth tail =>
    cases caller with
    | frame frame => exact (hframe frame h.2.1).symm
    | _ => cases hk
  | iterator set target caller depth tail =>
    cases set with
    | false =>
      have hreturn : ∀ (world : W) (value : Value),
          returnTo env value caller { s with world } tail =
            completeCallResult env value caller { s with world } tail :=
        fun world value => returnTo_eq (s := { s with world }) h.2.1 h.2.2.2 value
      exact (hreturn _ _).symm
    | true =>
      cases caller with
      | constructor_ instance_ caller' depth' => exact (throwTo_eq h.2.1 reason trace).symm
      | _ => exact absurd (h.2.2.1 rfl) Bool.false_ne_true
  | promiseExecutor promise caller depth tail =>
    have ht : tail = true → isFrame caller = true := fun ht => by
      rw [h.2.2] at ht
      cases ht
    have hreturn : ∀ world : W,
        returnTo env (.promise promise) caller { s with world } tail =
          completeCallResult env (.promise promise) caller { s with world } tail :=
      fun world => returnTo_eq (s := { s with world }) h.2.1 ht _
    exact (hreturn _).symm
  | async promise caller depth mode =>
    obtain ⟨rfl, hdelivers⟩ := h
    exact (handOver_eq
      (s := { s with world := env.settle s.world promise (.error (env.thrown reason trace)) })
      hdelivers).symm
  | _ => rfl

theorem raises_sound {s : State W} {boundary : Caller}
    (h : Stands strict entry s.callers s.depth boundary) (hk : OfFrame boundary)
    {unwind : List TraceFrame → Next W} (hu : ∀ trace, Sound (unwind trace)) (reason : Value)
    (trace : List TraceFrame) : Sound (raises env unwind reason boundary s trace) := by
  cases boundary with
  | none => exact absurd h not_false
  | frame frame => exact doThrow_sound hu (.frame frame) rfl _ _ _ _
  | native caller tail => exact doThrow_sound hu _ hk _ _ _ _
  | accessor get frame depth => exact doThrow_sound hu (.frame frame) rfl _ _ _ _
  | constructor_ instance_ caller depth => exact doThrow_sound hu _ h.2.1 _ _ _ _
  | objectAssign target caller depth tail => exact doThrow_sound hu _ hk _ _ _ _
  | iterator set target caller depth tail =>
    cases set with
    | false => exact completeCallResult_sound h.2.1 _ _ _
    | true =>
      cases caller with
      | constructor_ instance_ caller' depth' => exact doThrow_sound hu _ h.2.1.2.1 _ _ _ _
      | _ => exact absurd (h.2.2.1 rfl) Bool.false_ne_true
  | promiseExecutor promise caller depth tail => exact completeCallResult_sound h.2.1 _ _ _
  | thenGetter promise continuation depth =>
    exact continueAfterThenGetter_sound _ (h.2.imp And.left And.left)
  | async promise caller depth mode => exact deliver_sound h.2 _
  | _ => trivial

variable {boundary : Caller}

theorem delivered_iff (h : Stands strict entry s.callers s.depth boundary) :
    Delivered env boundary s ↔ OfFrame boundary := by
  constructor
  · intro hd
    cases boundary with
    | native caller tail =>
      -- The end of the iteration takes its caller for a frame.
      have hsound := hd.completes .undefined s.world
      cases caller with
      | frame frame => rfl
      | _ =>
        cases tail with
        | true => exact h.2 (.inr rfl)
        | false => exact absurd hsound not_false
    | objectAssign target caller depth tail =>
      -- So does the throw.
      have hsound := hd.unwinds (fun _ => .idle s) (fun _ => trivial) .undefined [] s.world
      cases caller with
      | frame frame => rfl
      | _ => exact absurd hsound not_false
    | _ => trivial
  · intro hk
    exact
      { value := fun value world => @ends_delivery _ _ _ _ { s with world } _ h hk value
        completes := fun value world => @ends_sound _ _ _ _ { s with world } _ h hk value
        throws := fun reason trace world =>
          @raises_thrownDelivery _ _ _ _ { s with world } _ h hk reason trace
        unwinds := fun unwind hu reason trace world =>
          @raises_sound _ _ _ _ { s with world } _ h hk _ hu reason trace }

/-! ### Runs -/

theorem Ends.stands {next : Next W} (he : Ends boundary s next) (h : Good strict entry next) :
    Stands strict entry s.callers s.depth boundary := by
  cases he with
  | resume => exact h.2.1.stands
  | dispatch => exact h.2.1.stands
  | throwFrom => exact h.2.stands
  | @return_ value s rest hcallers => exact (@Held.pop _ _ _ _ h _ _ hcallers s.world).2
  | @run frame s rest hcallers => exact (@Held.pop _ _ _ _ h.1 _ _ hcallers s.world).2

theorem Stands.ofFrame (h : Stands True entry rest d boundary) : OfFrame boundary := by
  cases boundary with
  | native caller tail => exact h.2 (.inl trivial)
  | objectAssign target caller depth tail => exact h.2.2 (.inl trivial)
  | _ => trivial

/-- **Delivery.**  In any run, a boundary delivers to its caller as an ordinary call would if and
only if no array iteration and no `Object.assign` that something other than a frame called is
ending; and in a run whose steps start none, every boundary delivers. -/
theorem caller_delivery (env : Env W) :
    (∀ c, (machine env).Reachable c → ∀ boundary s, Ends boundary s c.next →
      (Delivered env boundary s ↔ OfFrame boundary)) ∧
    ∀ c, (machine env).ReachableIf ByFrame c →
      (∀ boundary s, Ends boundary s c.next → Delivered env boundary s) ∧ Sound c.next := by
  constructor
  · intro c h boundary s he
    have hgood : Good False c.entry c.next := reachableIf_good (fun _ _ _ hf => hf.elim) h
    exact delivered_iff (he.stands hgood)
  · intro c h
    have hgood : Good True c.entry c.next := reachableIf_good (fun _ _ hok _ => hok) h
    constructor
    · intro boundary s he
      have hstands := he.stands hgood
      exact (delivered_iff hstands).2 hstands.ofFrame
    · cases hnext : c.next with
      | crash defect =>
        rw [hnext] at hgood
        exact hgood trivial
      | _ => trivial

/-- A frame calls `map`, whose end is an ordinary return to it. -/
theorem caller_delivery_map :
    ∃ c frame s, (machine countEnv).exec (initial (emptyFunction 0) (emptyState 3))
        [.invokes [] false, .startsArray] = some c ∧
      c.next = .resume (.native (.frame frame) false) none s ∧
      Delivered countEnv (.native (.frame frame) false) s := by
  have hruns : ∃ c frame s, (machine countEnv).exec (initial (emptyFunction 0) (emptyState 3))
        [.invokes [] false, .startsArray] = some c ∧
      c.next = .resume (.native (.frame frame) false) none s := ⟨_, _, _, rfl, rfl⟩
  obtain ⟨c, frame, s, hexec, hnext⟩ := hruns
  have hreach : (machine countEnv).Reachable c :=
    Machine.reachable_of_exec ⟨_, _, by decide, rfl⟩ hexec
  have hends : Ends (.native (.frame frame) false) s c.next := by
    rw [hnext]
    exact .resume
  exact ⟨c, frame, s, hexec, hnext, ((caller_delivery countEnv).1 c hreach _ _ hends).2 rfl⟩

/-- `promise.then([].map.bind([], f))`, and `promise.then(Object.assign.bind(null, target))` where
a property cannot be assigned. -/
theorem caller_delivery_crashes :
    (∃ c, (machine countEnv).exec (initial (emptyFunction 0) (emptyState 3))
        [.returns .undefined, .runsReaction 0 false 0, .startsArray,
          .finishes .undefined 0] = some c ∧ c.next = .crash .noField) ∧
    ∃ c, (machine countEnv).exec (initial (emptyFunction 0) (emptyState 3))
        [.returns .undefined, .runsReaction 0 false 0, .startsAssign .undefined,
          .rejects .undefined 0, .goes] = some c ∧ c.next = .crash .noField :=
  ⟨⟨_, rfl, rfl⟩, _, rfl, rfl⟩

end QuickBeam.Vm.Runtime.Calls
