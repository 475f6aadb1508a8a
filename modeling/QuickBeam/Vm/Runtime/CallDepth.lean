import QuickBeam.Vm.Runtime.Calls

/-!
# The depth of calls

`Stacked` ties the depth to the list of callers: taking a caller from the list gives back the
depth at which its callee was entered.  Every function of `Calls` keeps it (`Good`), so that the
depth is that of the entry and one more for every caller, but for the boundary of an async tail
call (`call_depth`).

`strict` says that array iterations and `Object.assign` are called by frames; no call then ends
in a missing clause.
-/

set_option linter.unusedSectionVars false

namespace QuickBeam.Vm.Runtime.Calls

open QuickBeam.Lib QuickBeam.Vm.Program

variable {W : Type} {env : Env W} {strict : Prop} {entry : ℕ}

/-! ### Callers in their place -/

def isAsync (frame : Frame) : Prop := frame.function.funcKind = 2

/-- A frame that awaits has its boundary above all other callers, or no caller at all. -/
def Anchored (frame : Frame) (callers : List Caller) : Prop :=
  isAsync frame → callers = [] ∨
    ∃ promise caller depth mode rest, callers = .async promise caller depth mode :: rest

def Rooted (entry : ℕ) (callers : List Caller) : Prop := callers = [] ∧ entry = 0

/-- The caller was made at depth `d`, over the callers `rest`, and is of a kind that the source
makes. -/
def Sits (strict : Prop) (entry : ℕ) (rest : List Caller) (d : ℕ) : Caller → Prop
  | .none => False
  | .frame frame => Anchored frame rest
  | .native caller tail =>
    Sits strict entry rest d caller ∧ (strict ∨ tail = true → isFrame caller = true)
  | .accessor _ frame depth => depth = d ∧ Anchored frame rest
  | .constructor_ _ caller depth =>
    depth = d ∧ isFrame caller = true ∧ Sits strict entry rest d caller
  | .objectAssign _ caller depth tail =>
    depth = d ∧ Sits strict entry rest d caller ∧ (strict ∨ tail = true → isFrame caller = true)
  | .iterator set _ caller depth tail =>
    depth = d ∧ Sits strict entry rest d caller ∧ (set = true → isConstructor caller = true) ∧
      (tail = true → isFrame caller = true)
  | .promiseExecutor _ caller depth tail =>
    depth = d ∧ Sits strict entry rest d caller ∧ tail = false
  | .thenable _ depth => depth = d ∧ Rooted entry rest
  | .thenGetter _ continuation depth =>
    depth = d ∧
      (continuation = .none ∧ Rooted entry rest ∨
        (isFrame continuation || isIterator continuation) = true ∧
          Sits strict entry rest d continuation)
  | .reaction _ depth _ => depth = d ∧ Rooted entry rest
  | .async _ _ _ _ => False

def Delivers (strict : Prop) (entry : ℕ) (rest : List Caller) (d : ℕ) (caller : Caller) :
    AsyncMode → Prop
  | .push => Sits strict entry rest d caller
  | .return_ => True
  | .reaction => (∃ promise finally_, caller = .reaction promise d finally_) ∧ Rooted entry rest
  | .executor => ∃ promise caller', caller = .promiseExecutor promise caller' d false ∧
      Sits strict entry rest d caller'
  | .thenable => Rooted entry rest
  | .detached => Rooted entry rest

def Stands (strict : Prop) (entry : ℕ) (rest : List Caller) (d : ℕ) : Caller → Prop
  | .async _ caller depth mode => depth = d ∧ Delivers strict entry rest d caller mode
  | caller => Sits strict entry rest d caller

/-- Every caller but the boundary of an async tail call raises the depth by one. -/
def weight : Caller → ℕ
  | .async _ _ _ .return_ => 0
  | _ => 1

def Stacked (strict : Prop) (entry : ℕ) : List Caller → ℕ → Prop
  | [], d => d = entry
  | caller :: rest, d => ∃ d', d = d' + weight caller ∧ Stands strict entry rest d' caller ∧
      Stacked strict entry rest d'

variable {caller : Caller} {d : ℕ} {rest : List Caller}

theorem Sits.stands (h : Sits strict entry rest d caller) : Stands strict entry rest d caller := by
  cases caller with
  | async promise caller depth mode => exact absurd h not_false
  | _ => exact h

theorem Sits.weight (h : Sits strict entry rest d caller) : weight caller = 1 := by
  cases caller with
  | async promise caller depth mode => exact absurd h not_false
  | _ => rfl

variable {callers : List Caller}

theorem Stacked.depth (h : Stacked strict entry callers d) :
    d = entry + (callers.map weight).sum := by
  induction callers generalizing d with
  | nil => exact h
  | cons caller rest ih =>
    obtain ⟨d', hd, -, hrest⟩ := h
    rw [List.map_cons, List.sum_cons, hd, ih hrest]
    omega

theorem Stands.depthAfter (h : Stands strict entry rest d caller) :
    depthAfter (d + weight caller) caller = d := by
  cases caller with
  | none => exact absurd h not_false
  | frame frame => rfl
  | native caller tail => rfl
  | thenable promise depth => exact h.1
  | _ => exact h.1

/-! ### States -/

structure Held (strict : Prop) (entry : ℕ) (s : State W) : Prop where
  stacked : Stacked strict entry s.callers s.depth
  bounded : s.depth ≤ s.maxStackDepth
  positive : 1 ≤ s.maxStackDepth
  detached : ∀ coroutine ∈ s.coroutines, coroutine.callers = []

structure AtRest (s : State W) : Prop where
  callers : s.callers = []
  depth : s.depth = 0
  positive : 1 ≤ s.maxStackDepth
  detached : ∀ coroutine ∈ s.coroutines, coroutine.callers = []

def Good (strict : Prop) (entry : ℕ) : Next W → Prop
  | .run frame s => Held strict entry s ∧ Anchored frame s.callers
  | .dispatch caller s tail => Held strict entry s ∧ Sits strict entry s.callers s.depth caller ∧
      (tail = true → isFrame caller = true)
  | .resume boundary _ s => Held strict entry s ∧ Sits strict entry s.callers s.depth boundary ∧
      (isNative boundary || isIterator boundary || isAssign boundary) = true
  | .return_ _ s => Held strict entry s
  | .throwFrom _ caller s => Held strict entry s ∧ Sits strict entry s.callers s.depth caller
  | .ok _ s => AtRest s
  | .idle s => AtRest s
  | .suspended frame s => Held strict entry s ∧ Anchored frame s.callers ∧ s.callers = []
  | .uncaught _ s => s.callers = [] ∧ s.depth = entry
  | .stackLimit depth s => Held strict entry s ∧ depth = s.maxStackDepth + 1
  | .stopped s => Held strict entry s
  | .crash _ => ¬ strict

variable {s : State W}

theorem Held.atRest (h : Held strict entry s) (hr : Rooted entry s.callers) : AtRest s := by
  have hdepth := h.stacked.depth
  rw [hr.1, hr.2] at hdepth
  exact ⟨hr.1, hdepth, h.positive, h.detached⟩

theorem Held.pop {s : State W} (h : Held strict entry s) {caller : Caller} {rest : List Caller}
    (hcallers : s.callers = caller :: rest) {world : W} :
    Held strict entry
        { s with callers := rest, depth := Calls.depthAfter s.depth caller, world := world } ∧
      Stands strict entry rest (Calls.depthAfter s.depth caller) caller := by
  have hstacked := h.stacked
  rw [hcallers] at hstacked
  obtain ⟨d, hd, hstands, hrest⟩ := hstacked
  have hafter : Calls.depthAfter s.depth caller = d := by
    rw [hd]
    exact hstands.depthAfter
  have hbounded := h.bounded
  rw [hafter]
  refine ⟨⟨hrest, ?_, h.positive, h.detached⟩, hstands⟩
  show d ≤ s.maxStackDepth
  omega

/-! ### Completion -/

theorem continueAfterThenGetter_good (h : Held strict entry s) {continuation : Caller}
    (hk : continuation = .none ∧ Rooted entry s.callers ∨ (isFrame continuation || isIterator
    continuation) = true ∧ Sits strict entry s.callers s.depth continuation) :
    Good strict entry (continueAfterThenGetter continuation s) := by
  rcases hk with ⟨rfl, hr⟩ | ⟨hkind, hsits⟩
  · exact h.atRest hr
  · cases continuation with
    | frame frame => exact ⟨h, hsits⟩
    | iterator set target caller depth tail => exact ⟨h, hsits, rfl⟩
    | _ => cases hkind

theorem completeCallResult_good (h : Held strict entry s)
    (hc : Sits strict entry s.callers s.depth caller) (value : Value) (tail : Bool) :
    Good strict entry (completeCallResult env value caller s tail) := by
  induction caller generalizing value tail with
  | none => exact absurd hc not_false
  | frame frame =>
    cases tail with
    | false => exact ⟨h, hc⟩
    | true => exact h
  | native caller tail' => exact ⟨h, hc, rfl⟩
  | accessor get frame depth =>
    cases get with
    | false => exact ⟨h, hc.2⟩
    | true => exact ⟨h, hc.2⟩
  | constructor_ instance_ caller depth ih => exact ih hc.2.2 _ _
  | objectAssign target caller depth tail' => exact ⟨h, hc, rfl⟩
  | iterator set target caller depth tail' => exact ⟨h, hc, rfl⟩
  | promiseExecutor promise caller depth tail' ih => exact ih hc.2.1 _ _
  | thenable promise depth => exact h.atRest hc.2
  | thenGetter promise continuation depth =>
    have h' : Held strict entry
        { s with world := env.completeThenGetter s.world promise value } := { h with }
    exact continueAfterThenGetter_good h' hc.2
  | reaction promise depth finally_ =>
    have h' : Held strict entry
        { s with world := env.completeReaction s.world promise finally_ value } := { h with }
    exact h'.atRest hc.2
  | async promise caller depth mode => exact absurd hc not_false

theorem deliver_good (h : Held strict entry s) {promise : ℕ} {mode : AsyncMode}
    (hd : Delivers strict entry s.callers s.depth caller mode) :
    Good strict entry (deliver env promise caller mode s) := by
  cases mode with
  | push => exact completeCallResult_good h hd _ _
  | return_ => exact h
  | reaction =>
    obtain ⟨⟨promise', finally_, rfl⟩, hr⟩ := hd
    have hsits : Sits strict entry s.callers s.depth (.reaction promise' s.depth finally_) :=
      ⟨rfl, hr⟩
    exact completeCallResult_good h hsits (.promise promise) false
  | executor =>
    obtain ⟨promise', caller', rfl, hsits⟩ := hd
    exact completeCallResult_good h hsits _ _
  | thenable => exact h.atRest hd
  | detached => exact h.atRest hd

theorem returnValue_good (h : Held strict entry s) (value : Value) :
    Good strict entry (returnValue env value s) := by
  unfold returnValue
  split
  · rename_i hcallers
    exact ⟨hcallers, rfl, h.positive, h.detached⟩
  · rename_i rest hcallers
    exact absurd (@Held.pop _ _ _ _ h _ _ hcallers s.world).2 not_false
  · rename_i promise caller depth mode rest hcallers
    obtain ⟨hheld, -, hdelivers⟩ := h.pop hcallers
    exact deliver_good hheld hdelivers
  · rename_i caller rest hnone hasync hcallers
    obtain ⟨hheld, hstands⟩ := @Held.pop _ _ _ _ h _ _ hcallers s.world
    have hsits : Sits strict entry rest (Calls.depthAfter s.depth caller) caller := by
      cases caller with
      | async promise caller' depth mode => exact absurd rfl (hasync promise caller' depth mode)
      | _ => exact hstands
    exact completeCallResult_good hheld hsits value false

variable {boundary : Caller}

theorem finish_good (h : Held strict entry s) (hb : Sits strict entry s.callers s.depth boundary)
    (hkind : (isNative boundary || isIterator boundary || isAssign boundary) = true)
    (value : Value) : Good strict entry (finish env value boundary s) := by
  cases boundary with
  | native caller tail =>
    cases tail with
    | true => exact h
    | false =>
      cases caller with
      | frame frame => exact ⟨h, hb.1⟩
      | _ => exact fun hs => absurd (hb.2 (.inl hs)) Bool.false_ne_true
  | objectAssign target caller depth tail => exact completeCallResult_good h hb.2.1 _ _
  | iterator set target caller depth tail =>
    cases set with
    | true => exact completeCallResult_good h hb.2.1 _ _
    | false =>
      have h' : Held strict entry { s with world := env.aggregateInto s.world target } := { h with }
      exact completeCallResult_good h' hb.2.1 _ _
  | _ => cases hkind

/-! ### Throws -/

variable {unwind : List TraceFrame → Next W}

theorem doThrow_good (h : Held strict entry s) (hu : ∀ trace, Good strict entry (unwind trace))
    (hc : Sits strict entry s.callers s.depth caller) (hframe : strict → isFrame caller = true)
    (reason : Value) (trace : List TraceFrame) (isCaller : Bool) :
    Good strict entry (doThrow unwind reason caller s trace isCaller) := by
  cases caller with
  | frame frame =>
    unfold doThrow
    dsimp only
    split
    · exact ⟨h, hc⟩
    · exact hu _
  | _ => exact fun hs => absurd (hframe hs) Bool.false_ne_true

theorem throwFromBoundary_good (h : Held strict entry s)
    (hu : ∀ trace, Good strict entry (unwind trace))
    (hb : Sits strict entry s.callers s.depth boundary) (reason : Value) (trace : List TraceFrame) :
    Good strict entry (throwFromBoundary env unwind reason boundary s trace) := by
  have hworld : ∀ world : W, Held strict entry { s with world := world } := fun world => { h with }
  cases boundary with
  | none => exact absurd hb not_false
  | frame frame => exact doThrow_good h hu hb (fun _ => rfl) _ _ _
  | native caller tail => exact doThrow_good h hu hb.1 (fun hs => hb.2 (.inl hs)) _ _ _
  | accessor get frame depth =>
    have hsits : Sits strict entry s.callers s.depth (.frame frame) := hb.2
    exact doThrow_good h hu hsits (fun _ => rfl) _ _ _
  | constructor_ instance_ caller depth => exact doThrow_good h hu hb.2.2 (fun _ => hb.2.1) _ _ _
  | objectAssign target caller depth tail =>
    exact doThrow_good h hu hb.2.1 (fun hs => hb.2.2 (.inl hs)) _ _ _
  | iterator set target caller depth tail =>
    cases set with
    | false =>
      have h' := hworld (env.settle (env.materialize s.world (env.thrown reason trace)).2 target
        (.error (env.materialize s.world (env.thrown reason trace)).1))
      exact completeCallResult_good h' hb.2.1 _ _
    | true =>
      cases caller with
      | constructor_ instance_ caller' depth' =>
        have hsits := hb.2.1
        exact doThrow_good h hu hsits.2.2 (fun _ => hsits.2.1) _ _ _
      | _ => exact absurd (hb.2.2.1 rfl) Bool.false_ne_true
  | promiseExecutor promise caller depth tail =>
    have h' := hworld (env.settle s.world promise (.error (env.thrown reason trace)))
    exact completeCallResult_good h' hb.2.1 _ _
  | thenable promise depth => exact (hworld _).atRest hb.2
  | thenGetter promise continuation depth => exact continueAfterThenGetter_good (hworld _) hb.2
  | reaction promise depth finally_ => exact (hworld _).atRest hb.2
  | async promise caller depth mode => exact absurd hb not_false

theorem unwindCaller_cons (h : Sits strict entry rest d caller) (reason : Value)
    (callers : List Caller) (s : State W) (trace : List TraceFrame) :
    unwindCaller env reason (caller :: callers) s trace =
      throwFromBoundary env
        (unwindCaller env reason callers
          { s with callers := callers, depth := depthAfter s.depth caller })
        reason caller { s with callers := callers, depth := depthAfter s.depth caller } trace := by
  cases caller with
  | none => exact absurd h not_false
  | async promise caller depth mode => exact absurd h not_false
  | _ => rfl

theorem unwindCaller_good (reason : Value) : ∀ {s : State W},
    Held strict entry { s with callers := callers } → ∀ trace,
      Good strict entry (unwindCaller env reason callers s trace) := by
  induction callers with
  | nil =>
    intro s h trace
    exact ⟨rfl, h.stacked⟩
  | cons caller rest ih =>
    intro s h trace
    obtain ⟨hheld, hstands⟩ := @Held.pop _ _ _ _ h caller rest rfl s.world
    cases caller with
    | none => exact absurd hstands not_false
    | async promise caller depth mode =>
      obtain ⟨hheld', -, hdelivers⟩ := @Held.pop _ _ _ _ h _ rest rfl
        (env.settle s.world promise (.error (env.thrown reason trace)))
      exact deliver_good hheld' hdelivers
    | _ =>
      rw [unwindCaller_cons hstands]
      exact throwFromBoundary_good hheld (ih hheld) hstands reason trace

variable {frame : Frame}

theorem throwAt_good (h : Held strict entry s) (hf : Anchored frame s.callers) (reason : Value) :
    Good strict entry (throwAt env reason frame s) := by
  have h' : Held strict entry { s with world := (env.throwState s.world reason).2.2 } := { h with }
  have hsits : Sits strict entry s.callers s.depth (.frame frame) := hf
  exact doThrow_good h' (unwindCaller_good _ h') hsits (fun _ => rfl) _ _ _

theorem throwFrom_good (h : Held strict entry s)
    (hb : Sits strict entry s.callers s.depth boundary) (reason : Value) :
    Good strict entry (throwFrom env reason boundary s) := by
  have h' : Held strict entry { s with world := (env.throwState s.world reason).2.2 } := { h with }
  exact throwFromBoundary_good h' (unwindCaller_good _ h') hb _ _

theorem reject_good (h : Held strict entry s) (hb : Sits strict entry s.callers s.depth boundary)
    (reason : Value) : Good strict entry (reject env reason boundary s) := by
  cases boundary with
  | iterator set target caller depth tail =>
    cases set with
    | true => exact ⟨h, hb.2.1⟩
    | false =>
      have h' : Held strict entry { s with
          world := env.settle (env.materialize s.world reason).2 target
            (.error (env.materialize s.world reason).1) } := { h with }
      exact completeCallResult_good h' hb.2.1 _ _
  | none => exact absurd hb not_false
  | async promise caller depth mode => exact absurd hb not_false
  | _ => exact ⟨h, hb⟩

/-! ### Entering a function -/

theorem Sits.asyncMode (h : Sits strict entry rest d caller) :
    Delivers strict entry rest d caller (asyncMode caller false) := by
  cases caller with
  | reaction promise depth finally_ =>
    obtain ⟨rfl, hr⟩ := h
    exact ⟨⟨promise, finally_, rfl⟩, hr⟩
  | promiseExecutor promise caller depth tail =>
    obtain ⟨rfl, hc, rfl⟩ := h
    exact ⟨promise, caller, rfl, hc⟩
  | thenable promise depth => exact h.2
  | _ => exact h

variable {next : Next W}

theorem limit_good (h : Held strict entry s) {depth : ℕ} (hd : depth ≤ s.depth + 1)
    (hn : depth ≤ s.maxStackDepth → Good strict entry next) :
    Good strict entry (if s.maxStackDepth < depth then .stackLimit depth s else next) := by
  have hbounded := h.bounded
  by_cases hlimit : s.maxStackDepth < depth
  · rw [if_pos hlimit]
    refine ⟨h, ?_⟩
    omega
  · rw [if_neg hlimit]
    exact hn (Nat.le_of_not_lt hlimit)

theorem anchored_async (frame : Frame) (promise : ℕ) (caller : Caller) (depth : ℕ)
    (mode : AsyncMode) (rest : List Caller) :
    Anchored frame (.async promise caller depth mode :: rest) :=
  fun _ => .inr ⟨promise, caller, depth, mode, rest, rfl⟩

variable {tail : Bool}

theorem enterAsyncCall_good (h : Held strict entry s)
    (hc : Sits strict entry s.callers s.depth caller) (ht : tail = true → isFrame caller = true)
    (function : Function) (callable : Value) (closureRefs : List SlotRef) (arguments : List Value)
    (this : Value) : Good strict entry
      (enterAsyncCall env function callable closureRefs arguments this caller s tail) := by
  cases tail with
  | true =>
    have hmode : asyncMode caller true = .return_ := by
      cases caller with
      | frame frame => rfl
      | _ => exact absurd (ht rfl) Bool.false_ne_true
    refine limit_good h (Nat.le_succ _) fun hle => ⟨⟨?_, hle, h.positive, h.detached⟩,
      anchored_async _ _ _ _ _ _⟩
    refine ⟨s.depth, ?_, ⟨rfl, ?_⟩, h.stacked⟩
    · rw [hmode]
      rfl
    · rw [hmode]
      trivial
  | false =>
    refine limit_good h (le_refl _) fun hle => ⟨⟨?_, hle, h.positive, h.detached⟩,
      anchored_async _ _ _ _ _ _⟩
    refine ⟨s.depth, ?_, ⟨rfl, hc.asyncMode⟩, h.stacked⟩
    show s.depth + 1 = s.depth + _
    cases caller with
    | _ => rfl

theorem enterSyncCall_good (h : Held strict entry s)
    (hc : Sits strict entry s.callers s.depth caller) {function : Function}
    (hkind : function.funcKind ≠ 2) (callable : Value) (closureRefs : List SlotRef)
    (arguments : List Value) (this : Value) (tail : Bool) : Good strict entry
      (enterSyncCall function callable closureRefs arguments this caller s tail) := by
  have hanchored : ∀ callers,
      Anchored (newFrame function callable arguments this closureRefs) callers :=
    fun callers hasync => absurd hasync hkind
  cases tail with
  | true => exact limit_good h (Nat.le_succ _) fun _ => ⟨h, hanchored _⟩
  | false =>
    refine limit_good h (le_refl _) fun hle => ⟨⟨?_, hle, h.positive, h.detached⟩, hanchored _⟩
    refine ⟨s.depth, ?_, hc.stands, h.stacked⟩
    rw [hc.weight]
    rfl

theorem enterPlannedCall_good (h : Held strict entry s)
    (hc : Sits strict entry s.callers s.depth caller) (ht : tail = true → isFrame caller = true)
    (function : Function) (callable : Value) (closureRefs : List SlotRef) (arguments : List Value)
    (this : Value) : Good strict entry
      (enterPlannedCall env function callable closureRefs arguments this caller s tail) := by
  unfold enterPlannedCall
  by_cases hkind : function.funcKind = 2
  · rw [if_pos hkind]
    exact enterAsyncCall_good h hc ht _ _ _ _ _
  · rw [if_neg hkind]
    exact enterSyncCall_good h hc hkind _ _ _ _ _

/-! ### Detached coroutines -/

theorem detach_good (h : Held strict entry s) (hasync : isAsync frame)
    (hf : Anchored frame s.callers) : Good strict entry (detach env frame s) := by
  unfold detach
  rcases hf hasync with hcallers | ⟨promise, caller, depth, mode, rest, hcallers⟩
  · rw [hcallers]
    exact ⟨h, hf, hcallers⟩
  · obtain ⟨hheld, -, hdelivers⟩ := @Held.pop _ _ _ _ h _ _ hcallers s.world
    rw [hcallers]
    dsimp only [splitAtAsync]
    have h' : Held strict entry { s with
        callers := rest, depth := depth
        coroutines := s.coroutines ++ [⟨frame, [], promise⟩] } := by
      refine ⟨hheld.stacked, hheld.bounded, hheld.positive, fun coroutine hc => ?_⟩
      rcases List.mem_append.1 hc with hc | hc
      · exact h.detached coroutine hc
      · rw [List.mem_singleton.1 hc]
    exact deliver_good h' hdelivers

theorem resumeCoroutine_good (h : AtRest s) {coroutine : Coroutine} (hc : coroutine.callers = [])
    (result : Except Value Value) : Good strict 0 (resumeCoroutine coroutine result s) := by
  have hanchored : ∀ frame : Frame,
      Anchored frame [.async coroutine.promise .none 0 .detached] :=
    fun frame _ => .inr ⟨coroutine.promise, .none, 0, .detached, [], rfl⟩
  have hstacked : Stacked strict 0 [.async coroutine.promise .none 0 .detached] 1 :=
    ⟨0, rfl, ⟨rfl, rfl, rfl⟩, rfl⟩
  unfold resumeCoroutine
  rw [hc]
  cases result with
  | ok value => exact ⟨⟨hstacked, h.positive, h.positive, h.detached⟩, hanchored _⟩
  | error reason => exact ⟨⟨hstacked, h.positive, h.positive, h.detached⟩, hanchored _⟩

/-! ### One step -/

/-- Array iterations and `Object.assign` are called by frames. -/
def ByFrame (c : Config W) (e : Event W) : Prop :=
  match c.next, e with
  | .dispatch caller _ _, .startsArray => isFrame caller = true
  | .dispatch caller _ _, .startsAssign _ => isFrame caller = true
  | _, _ => True

variable {e : Event W}

theorem stepRun_good (h : Held strict entry s) (hf : Anchored frame s.callers)
    (hstep : stepRun env frame s e = some next) : Good strict entry next := by
  have hsame : ∀ stack : List Value, Anchored { frame with stack } s.callers := fun _ => hf
  cases e with
  | proceeds frame' execution =>
    cases hstep
    exact ⟨⟨h.stacked, h.bounded, h.positive, h.detached⟩, hf⟩
  | invokes stack tail =>
    cases hstep
    exact ⟨h, hf, fun _ => rfl⟩
  | constructs stack instance_ =>
    cases hstep
    exact ⟨h, ⟨rfl, rfl, hf⟩, fun ht => nomatch ht⟩
  | accesses stack get =>
    cases hstep
    exact ⟨h, ⟨rfl, hf⟩, fun ht => nomatch ht⟩
  | returns value =>
    cases hstep
    exact returnValue_good h value
  | throws stack reason =>
    cases hstep
    exact throwAt_good h (hsame stack) reason
  | awaits stack world =>
    simp only [stepRun] at hstep
    split at hstep
    · rename_i hasync
      cases hstep
      have h' : Held strict entry { s with world } := { h with }
      have hf' : Anchored { frame with stack }.next s.callers := hf
      exact detach_good h' hasync hf'
    · cases hstep
  | readsThen promise world =>
    cases hstep
    exact ⟨{ h with }, ⟨rfl, .inr ⟨rfl, hf⟩⟩, fun ht => nomatch ht⟩
  | stops =>
    cases hstep
    exact h
  | _ => cases hstep

theorem stepDispatch_good (h : Held strict entry s)
    (hc : Sits strict entry s.callers s.depth caller) (ht : tail = true → isFrame caller = true)
    (hok : strict → ByFrame ⟨.dispatch caller s tail, entry⟩ e)
    (hstep : stepDispatch env caller s tail e = some next) : Good strict entry next := by
  cases e with
  | enters function callable closureRefs arguments this =>
    cases hstep
    exact enterPlannedCall_good h hc ht _ _ _ _ _
  | completes value world =>
    cases hstep
    have h' : Held strict entry { s with world } := { h with }
    exact completeCallResult_good h' hc value tail
  | raises reason world =>
    cases hstep
    exact ⟨{ h with }, hc⟩
  | startsArray =>
    cases hstep
    exact ⟨h, ⟨hc, fun hs => hs.elim hok ht⟩, rfl⟩
  | startsAssign target =>
    cases hstep
    exact ⟨h, ⟨rfl, hc, fun hs => hs.elim hok ht⟩, rfl⟩
  | startsIterator set target world =>
    simp only [stepDispatch] at hstep
    split at hstep
    · cases hstep
    · rename_i hset
      cases hstep
      refine ⟨{ h with }, ⟨rfl, hc, fun hs => ?_, ht⟩, rfl⟩
      rw [hs] at hset
      simpa using hset
  | startsExecutor promise world =>
    simp only [stepDispatch] at hstep
    split at hstep
    · cases hstep
      exact ⟨{ h with }, ⟨rfl, hc, rfl⟩, fun ht => nomatch ht⟩
    · cases hstep
  | stops =>
    cases hstep
    exact h
  | _ => cases hstep

theorem stepResume_good (h : Held strict entry s)
    (hb : Sits strict entry s.callers s.depth boundary)
    (hkind : (isNative boundary || isIterator boundary || isAssign boundary) = true)
    (hstep : stepResume env boundary s e = some next) : Good strict entry next := by
  have hworld : ∀ world : W, Held strict entry { s with world := world } := fun world => { h with }
  cases e with
  | calls world =>
    cases hstep
    exact ⟨hworld world, hb, fun ht => nomatch ht⟩
  | finishes value world =>
    cases hstep
    exact finish_good (hworld world) hb hkind value
  | rejects reason world =>
    simp only [stepResume] at hstep
    split at hstep
    · cases hstep
    · cases hstep
      exact reject_good (hworld world) hb reason
  | readsThen promise world =>
    simp only [stepResume] at hstep
    split at hstep
    · rename_i hiterator
      cases hstep
      refine ⟨hworld world, ⟨rfl, .inr ⟨?_, hb⟩⟩, fun ht => nomatch ht⟩
      rw [hiterator, Bool.or_true]
    · cases hstep
  | _ => cases hstep

theorem AtRest.held (h : AtRest s) : Held strict 0 s := by
  refine ⟨?_, ?_, h.positive, h.detached⟩
  · rw [h.callers]
    exact h.depth
  · rw [h.depth]
    exact Nat.zero_le _

theorem stepDriver_good (h : AtRest s) (hstep : stepDriver s e = some next) :
    Good strict 0 next := by
  have hworld : ∀ world : W, Held strict 0 { s with world := world } :=
    fun world => AtRest.held { h with }
  have hrooted : Rooted 0 s.callers := ⟨h.callers, rfl⟩
  cases e with
  | resumesCoroutine index result world =>
    obtain ⟨coroutine, hget, rfl⟩ := Option.map_eq_some_iff.1 hstep
    have hdetached := h.detached coroutine (List.mem_of_getElem? hget)
    have hrest : AtRest { s with world, coroutines := s.coroutines.eraseIdx index } :=
      ⟨h.callers, h.depth, h.positive, fun k hk => h.detached k (List.mem_of_mem_eraseIdx hk)⟩
    exact resumeCoroutine_good hrest hdetached result
  | runsReaction promise finally_ world =>
    cases hstep
    exact ⟨hworld world, ⟨rfl, hrooted⟩, fun ht => nomatch ht⟩
  | runsThenable promise world =>
    cases hstep
    exact ⟨hworld world, ⟨rfl, hrooted⟩, fun ht => nomatch ht⟩
  | readsThen promise world =>
    cases hstep
    exact ⟨hworld world, ⟨rfl, .inl ⟨rfl, hrooted⟩⟩, fun ht => nomatch ht⟩
  | runsJob world =>
    cases hstep
    exact { h with }
  | callsGlobal root world =>
    cases hstep
    exact ⟨hworld world, fun _ => .inl h.callers, fun _ => rfl⟩
  | _ => cases hstep

theorem advance_good {next next' : Next W} (h : Good strict entry next)
    (hok : strict → ByFrame ⟨next, entry⟩ e) (hstep : advance env next e = some next') :
    Good strict (if atRest next then 0 else entry) next' := by
  cases next with
  | run frame s => exact stepRun_good h.1 h.2 hstep
  | dispatch caller s tail => exact stepDispatch_good h.1 h.2.1 h.2.2 hok hstep
  | resume boundary value s => exact stepResume_good h.1 h.2.1 h.2.2 hstep
  | return_ value s =>
    cases e with
    | goes =>
      cases hstep
      exact returnValue_good h value
    | _ => cases hstep
  | throwFrom reason caller s =>
    cases e with
    | goes =>
      cases hstep
      exact throwFrom_good h.1 h.2 reason
    | _ => cases hstep
  | suspended frame s =>
    cases e with
    | continues result world =>
      cases result with
      | ok value =>
        cases hstep
        exact ⟨{ h.1 with }, h.2.1⟩
      | error reason =>
        cases hstep
        exact ⟨{ h.1 with }, h.2.1⟩
    | _ => cases hstep
  | ok value s => exact stepDriver_good h hstep
  | idle s => exact stepDriver_good h hstep
  | uncaught error s => cases hstep
  | stackLimit depth s => cases hstep
  | stopped s => cases hstep
  | crash defect => cases hstep

theorem step_good {c c' : Config W} (h : Good strict c.entry c.next) (hok : strict → ByFrame c e)
    (hstep : step env c e = some c') : Good strict c'.entry c'.next := by
  obtain ⟨next, hnext, rfl⟩ := Option.map_eq_some_iff.1 hstep
  exact advance_good h hok hnext

theorem initial_good {root : Function} (hs : 1 ≤ s.maxStackDepth) :
    Good strict 1 (initial root s).next :=
  ⟨⟨rfl, hs, hs, fun _ hk => nomatch hk⟩, fun _ => .inl rfl⟩

variable {c : Config W}

/-- The invariant of every run whose steps meet the condition that `strict` names. -/
theorem reachableIf_good {ok : Config W → Event W → Prop}
    (hok : ∀ c e, ok c e → strict → ByFrame c e) (h : (machine env).ReachableIf ok c) :
    Good strict c.entry c.next := by
  refine h.invariant (I := fun c => Good strict c.entry c.next) ?_ ?_
  · rintro c ⟨root, s, hs, rfl⟩
    exact initial_good hs
  · intro c e c' hI he hstep
    exact step_good hI (hok c e he) hstep

/-! ### The result -/

/-- The depth belongs to the callers, and the stack limit is kept. -/
structure Deep (entry : ℕ) (s : State W) : Prop where
  depth : s.depth = entry + (s.callers.map weight).sum
  bounded : s.depth ≤ s.maxStackDepth

/-- The depth while the evaluation is active, and when it ends or rests. -/
def Disciplined (c : Config W) : Prop :=
  match c.next with
  | .run _ s => Deep c.entry s
  | .dispatch _ s _ => Deep c.entry s
  | .resume _ _ s => Deep c.entry s
  | .return_ _ s => Deep c.entry s
  | .throwFrom _ _ s => Deep c.entry s
  | .suspended _ s => Deep c.entry s ∧ s.callers = []
  | .stopped s => Deep c.entry s
  | .stackLimit depth s => Deep c.entry s ∧ depth = s.maxStackDepth + 1
  | .ok _ s => s.callers = [] ∧ s.depth = 0
  | .idle s => s.callers = [] ∧ s.depth = 0
  | .uncaught _ s => s.callers = [] ∧ s.depth = c.entry
  | .crash _ => True

theorem Held.deep (h : Held strict entry s) : Deep entry s :=
  ⟨h.stacked.depth, h.bounded⟩

theorem Good.disciplined (h : Good strict c.entry c.next) : Disciplined c := by
  unfold Disciplined
  split <;> rename_i hnext <;> rw [hnext] at h
  · exact h.1.deep
  · exact h.1.deep
  · exact h.1.deep
  · exact Held.deep h
  · exact h.1.deep
  · exact ⟨h.1.deep, h.2.2⟩
  · exact Held.deep h
  · exact ⟨h.1.deep, h.2⟩
  · exact ⟨h.callers, h.depth⟩
  · exact ⟨h.callers, h.depth⟩
  · exact h
  · trivial

theorem entry_le (h : (machine env).Reachable c) : c.entry ≤ 1 := by
  refine h.invariant (I := fun c => c.entry ≤ 1) ?_ ?_
  · rintro c ⟨root, s, -, rfl⟩
    exact le_refl _
  · intro c e c' hI hstep
    obtain ⟨next, -, rfl⟩ := Option.map_eq_some_iff.1 hstep
    show (if atRest c.next then 0 else c.entry) ≤ 1
    split
    · exact Nat.zero_le _
    · exact hI

theorem enterPlannedCall_limit (hs : s.depth = s.maxStackDepth) (function : Function)
    (callable : Value) (closureRefs : List SlotRef) (arguments : List Value) (this : Value)
    (caller : Caller) :
    enterPlannedCall env function callable closureRefs arguments this caller s false =
      .stackLimit (s.maxStackDepth + 1) s := by
  have hlimit : s.maxStackDepth < s.maxStackDepth + 1 := Nat.lt_succ_self _
  unfold enterPlannedCall
  split
  · show (if s.maxStackDepth < s.depth + 1 then _ else _) = _
    rw [hs, if_pos hlimit]
    rfl
  · show (if s.maxStackDepth < s.depth + 1 then _ else _) = _
    rw [hs, if_pos hlimit]
    rfl

/-- **Call depth.** -/
theorem call_depth {c : Config W} (h : (machine env).Reachable c) :
    Disciplined c ∧ c.entry ≤ 1 ∧
    ∀ caller s function callable closureRefs arguments this,
      c.next = .dispatch caller s false → s.depth = s.maxStackDepth →
      advance env c.next (.enters function callable closureRefs arguments this) =
        some (.stackLimit (s.maxStackDepth + 1) s) := by
  have hgood : Good False c.entry c.next := reachableIf_good (fun _ _ _ hf => hf.elim) h
  refine ⟨hgood.disciplined, entry_le h, ?_⟩
  intro caller s function callable closureRefs arguments this hnext hs
  rw [hnext]
  exact congrArg some (enterPlannedCall_limit hs _ _ _ _ _ _)

def emptyFunction (funcKind : ℕ) : Function where
  id := 0
  argCount := 0
  varCount := 0
  definedArgCount := 0
  stackSize := 0
  varRefCount := 0
  locals := []
  closureVars := []
  instructions := []
  sourcePositions := []
  hasPrototype := false
  funcKind := funcKind
  constants := []

/-- Promises are counted, and nothing else is kept of the world. -/
def countEnv : Env ℕ where
  newPromise w := (w, w + 1)
  settle w _ _ := w
  settleAssimilated w _ _ := w
  completeThenGetter w _ _ := w
  completeReaction w _ _ _ := w
  aggregateInto w _ := w
  materialize w reason := (reason, w)
  throwState w reason := (reason, [], w)
  thrown reason _ := reason
  toJsError _ reason _ := reason

def emptyState (maxStackDepth : ℕ) : State ℕ where
  atoms := []
  callers := []
  cells := ∅
  nextCellId := 0
  globals := ∅
  coroutines := []
  depth := 1
  maxStackDepth := maxStackDepth
  remainingSteps := 0
  stepLimit := 0
  memoryExceeded := false
  syncJobsPending := false
  world := 0

/-- An async function is called, calls a function, and awaits. -/
theorem call_depth_async :
    ∃ c s, (machine countEnv).exec (initial (emptyFunction 0) (emptyState 3))
        [.invokes [] false, .enters (emptyFunction 2) .undefined [] [] .undefined,
          .invokes [] false, .enters (emptyFunction 0) .undefined [] [] .undefined] = some c ∧
      c.next = .run (newFrame (emptyFunction 0) .undefined [] .undefined []) s ∧
      s.callers.length = 2 ∧ s.depth = 3 ∧ Disciplined c := by
  have hruns : ∃ c s, (machine countEnv).exec (initial (emptyFunction 0) (emptyState 3))
        [.invokes [] false, .enters (emptyFunction 2) .undefined [] [] .undefined,
          .invokes [] false, .enters (emptyFunction 0) .undefined [] [] .undefined] = some c ∧
      c.next = .run (newFrame (emptyFunction 0) .undefined [] .undefined []) s ∧
      s.callers.length = 2 ∧ s.depth = 3 := ⟨_, _, rfl, rfl, rfl, rfl⟩
  obtain ⟨c, s, hexec, hnext, hcallers, hdepth⟩ := hruns
  have hinit : (machine countEnv).init (initial (emptyFunction 0) (emptyState 3)) :=
    ⟨_, _, by decide, rfl⟩
  exact ⟨c, s, hexec, hnext, hcallers, hdepth,
    (call_depth (Machine.reachable_of_exec hinit hexec)).1⟩

/-- A program that returns ends below the depth at which it was entered, and an async tail call
adds a caller and leaves the depth as it is. -/
theorem call_depth_moves :
    (∃ c value s, (machine countEnv).exec (initial (emptyFunction 0) (emptyState 3))
        [.returns .undefined] = some c ∧ c.next = .ok value s ∧ c.entry = 1 ∧ s.depth = 0) ∧
    ∃ c frame s, (machine countEnv).exec (initial (emptyFunction 0) (emptyState 3))
        [.invokes [] true, .enters (emptyFunction 2) .undefined [] [] .undefined] = some c ∧
      c.next = .run frame s ∧ s.callers.length = 1 ∧ s.depth = 1 :=
  ⟨⟨_, _, _, rfl, rfl, rfl, rfl⟩, _, _, _, rfl, rfl, rfl, rfl⟩

end QuickBeam.Vm.Runtime.Calls
