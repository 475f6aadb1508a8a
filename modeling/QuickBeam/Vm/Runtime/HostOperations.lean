import QuickBeam.Vm.Runtime.EventLoop

/-!
# Every reply settles its own operation

`Effect` says what a step does to the promises and the pending operations.  `Correlated` follows
in every reachable state: at most 64 operations are outstanding, and an accepted operation is
outstanding with a pending promise until the reply of its task is taken, which resolves the
promise.
-/

set_option linter.unusedSectionVars false

namespace QuickBeam.Vm.Runtime.EventLoop

open QuickBeam.Lib QuickBeam.Vm.Program
open QuickBeam.Vm.Runtime.Promise (Value Plain Resolution Result Job Env Before Leaves
  ResolvedWith)

variable {ν η : Type} {env : Env ν η} {host : Host ν} {s s' : State ν η}

/-! ### Promises that only their reply resolves -/

/-- Nothing that is under way resolves `p`. -/
def Free (p : ℕ) (s : Promise.State ν η) : Prop := ∀ id, s.nextRef ≤ id → Before p id s

theorem Free.run {p : ℕ} {t t' : Promise.State ν η} {es : List (Promise.Event ν η)}
    (h : Free p t) (hr : (Promise.machine env).GuardedRun (Leaves p) t es t')
    (hp : Promise.Apart p t.nextPromise t'.nextPromise) :
    Free p t' ∧ t'.promises.get? p = t.promises.get? p := by
  obtain ⟨-, hmono⟩ := Promise.run_mono hr
  constructor
  · intro id hid
    exact (Promise.before_of_run (h id (le_trans hmono hid)) hr hp hid).1
  · exact (Promise.before_of_run (h _ hmono) hr hp (le_refl _)).2

variable {p : ℕ} {t : Promise.State ν η}

theorem Free.new (h : Free p t) : Free p (Promise.new t).2 := by
  intro id hid
  have hb := h id hid
  exact ⟨hb.ledger.create, hb.traced, hb.memberships, { hb.quiet with }⟩

variable {event : Promise.Event ν η}

theorem resolved?_eq {q : ℕ} (h : Promise.Resolves q event) : resolved? event = some q := by
  cases event with
  | settle q' r => exact congrArg some h
  | aggregateInto q' kind values => exact congrArg some h
  | _ => exact absurd h not_false

/-! ### What running code leaves -/

/-- What an event of running code leaves. -/
inductive Ran (env : Env ν η) (s : State ν η) : Event ν η → State ν η → Prop where
  | script {event : Promise.Event ν η} {execution : Promise.State ν η}
      (hmay : mayDo s event = true) (hexec : Promise.step env s.execution event = some execution) :
      Ran env s (.script event) { s with execution }
  | refused {name : Option Binary} {start : Except ν Unit} : Ran env s (.hostCall name start) s
  | accepted {name : Option Binary} {start : Except ν Unit}
      (hsize : s.operations.size < maxHostOperations) :
      Ran env s (.hostCall name start)
        { s with
          execution := (Promise.new s.execution).2
          operations := s.operations.put s.nextOperation ⟨s.execution.nextPromise, s.nextPid⟩
          tasks := s.tasks.put s.nextPid s.nextOperation
          nextOperation := s.nextOperation + 1
          nextPid := s.nextPid + 1
          accepted := s.accepted ++ [(s.nextOperation, s.execution.nextPromise)] }
  /-- The new promise is rejected at once. -/
  | rejected {name : Option Binary} {start : Except ν Unit} {r : Resolution ν}
      {execution : Promise.State ν η} {nextOperation : ℕ}
      (hexec : Promise.settle env (Promise.new s.execution).2 s.execution.nextPromise r =
        some execution) (hnext : s.nextOperation ≤ nextOperation) :
      Ran env s (.hostCall name start) { s with execution, nextOperation }
  | awaits {promise : ℕ} :
      Ran env s (.awaitPromise promise)
        { s with phase := .legacy promise, suspensions := s.suspensions + 1 }
  | awaitsSettled {promise : ℕ} {result : Result ν}
      (hstate : s.execution.promises.get? promise = some (.settled result)) :
      Ran env s (.awaitPromise promise)
        (suspendMicrotask s (.promise promise) result.resolution)
  | awaitsValue {r : Resolution ν} : Ran env s (.awaitValue r) (suspendMicrotask s (.value r) r)
  | ends {value : Value ν} {promise : ℕ} : Ran env s (.ends value) { s with phase := .final promise }
  | finishes {e : Event ν η} : Ran env s e (finish s)

theorem startHostCall_cases {name : Option Binary} {start : Except ν Unit} {outcome : Outcome}
    (h : startHostCall env host s name start = some (outcome, s')) :
    Ran env s (.hostCall name start) (if outcome = .limitExceeded then finish s' else s') := by
  unfold startHostCall at h
  split at h
  · cases h
    exact .refused
  · dsimp only at h
    split at h
    · rename_i hsize
      split at h
      · obtain ⟨t, ht, he⟩ := Option.map_eq_some_iff.1 h
        cases he
        unfold startHandlerTask at ht
        split at ht
        · cases ht
          exact .accepted hsize
        · obtain ⟨execution, hexec, rfl⟩ := Option.map_eq_some_iff.1 ht
          exact .rejected hexec (Nat.le_succ _)
      · obtain ⟨execution, hexec, he⟩ := Option.map_eq_some_iff.1 h
        cases he
        exact .rejected hexec (le_refl _)
    · cases h
      exact .finishes

variable {e : Event ν η}

theorem runScript_cases {final : Option ℕ} (h : runScript env host s final e = some s') :
    Ran env s e s' := by
  cases e with
  | script event =>
    simp only [runScript] at h
    split at h
    · rename_i hmay
      obtain ⟨execution, hexec, rfl⟩ := Option.map_eq_some_iff.1 h
      exact .script hmay hexec
    · cases h
  | hostCall name start =>
    obtain ⟨⟨outcome, t⟩, ht, rfl⟩ := Option.map_eq_some_iff.1 h
    exact startHostCall_cases ht
  | awaitPromise promise =>
    obtain ⟨state, hstate, rfl⟩ := Option.map_eq_some_iff.1 h
    cases state with
    | pending => exact .awaits
    | resolving => exact .awaits
    | settled result => exact .awaitsSettled hstate
  | awaitValue r =>
    cases h
    exact .awaitsValue
  | ends value =>
    simp only [runScript] at h
    split at h
    · cases h
      exact .ends
    · cases h
      exact .ends
    · cases h
      exact .finishes
  | fails =>
    cases h
    exact .finishes
  | _ => cases h

inductive Stepped (env : Env ν η) (s : State ν η) : Event ν η → State ν η → Prop where
  | runs {e : Event ν η} {t : State ν η} (final : Option ℕ) (hphase : s.phase = .running final)
      (h : Ran env s e t) : Stepped env s e t
  | drives {t : State ν η} (h : driveStep env s = some t) : Stepped env s .drive t
  | receives {t : State ν η} (h : receiveStep env s = some t) : Stepped env s .receive t
  | replies {pid op : ℕ} {r : Resolution ν} (ht : s.tasks.get? pid = some op) :
      Stepped env s (.replies pid r)
        { s with
          tasks := s.tasks.delete pid
          mailbox := s.mailbox ++ [⟨.own op, r⟩]
          sent := s.sent ++ [(op, r)] }
  | dies (pid : ℕ) : Stepped env s (.dies pid) { s with tasks := s.tasks.delete pid }
  | duplicates {index op : ℕ} {r : Resolution ν} (hsent : (op, r) ∈ s.sent) :
      Stepped env s (.duplicates index) { s with mailbox := s.mailbox ++ [⟨.own op, r⟩] }
  | strays (n : ℕ) (r : Resolution ν) :
      Stepped env s (.strays n r) { s with mailbox := s.mailbox ++ [⟨.foreign n, r⟩] }

theorem stepped_script (h : (match s.phase with
    | .running final => runScript env host s final e
    | _ => none) = some s') : Stepped env s e s' := by
  split at h
  · rename_i final hphase
    exact .runs final hphase (runScript_cases h)
  · cases h

theorem step_cases (h : step env host s e = some s') : Stepped env s e s' := by
  cases e with
  | drive => exact .drives h
  | receive => exact .receives h
  | replies pid r =>
    obtain ⟨op, ht, rfl⟩ := Option.map_eq_some_iff.1 h
    exact .replies ht
  | dies pid =>
    cases h
    exact .dies pid
  | duplicates index =>
    obtain ⟨entry, hentry, rfl⟩ := Option.map_eq_some_iff.1 h
    exact .duplicates (List.mem_of_getElem? hentry)
  | strays n r =>
    cases h
    exact .strays n r
  | script event => exact stepped_script h
  | hostCall name start => exact stepped_script h
  | awaitPromise promise => exact stepped_script h
  | awaitValue r => exact stepped_script h
  | ends value => exact stepped_script h
  | fails => exact stepped_script h

/-! ### What a step does -/

/-- The events resolve only promises that exist and belong to no host call. -/
def Foreign (s : State ν η) (next : ℕ) (es : List (Promise.Event ν η)) : Prop :=
  ∀ event ∈ es, ∀ q, Promise.Resolves q event → q < next ∧ ∀ entry ∈ s.accepted, entry.2 ≠ q

inductive Effect (env : Env ν η) (s s' : State ν η) : Prop where
  | other (es : List (Promise.Event ν η))
      (hexec : (Promise.machine env).exec s.execution es = some s'.execution)
      (hforeign : Foreign s s'.execution.nextPromise es)
      (hoperations : s'.operations = s.operations) (haccepted : s'.accepted = s.accepted)
      (htaken : s'.taken = s.taken) (hnext : s.nextOperation ≤ s'.nextOperation)
  | accepts (pid : ℕ) (hsize : s.operations.size < maxHostOperations)
      (hexec : s'.execution = (Promise.new s.execution).2)
      (hoperations : s'.operations =
        s.operations.put s.nextOperation ⟨s.execution.nextPromise, pid⟩)
      (haccepted : s'.accepted = s.accepted ++ [(s.nextOperation, s.execution.nextPromise)])
      (htaken : s'.taken = s.taken) (hnext : s'.nextOperation = s.nextOperation + 1)
  | takes (op : ℕ) (o : Operation) (r : Resolution ν) (t : Promise.State ν η)
      (es : List (Promise.Event ν η)) (hmessage : ⟨.own op, r⟩ ∈ s.mailbox)
      (hop : s.operations.get? op = some o)
      (hsettle : Promise.settle env s.execution o.promise r = some t)
      (hexec : (Promise.machine env).exec t es = some s'.execution)
      (hforeign : ∀ event ∈ es, ∀ q, ¬ Promise.Resolves q event)
      (hoperations : s'.operations = s.operations.delete op)
      (haccepted : s'.accepted = s.accepted) (htaken : s'.taken = s.taken ++ [(op, r)])
      (hnext : s'.nextOperation = s.nextOperation)

theorem Effect.same (hexec : s'.execution = s.execution) (hoperations : s'.operations = s.operations)
    (haccepted : s'.accepted = s.accepted) (htaken : s'.taken = s.taken)
    (hnext : s'.nextOperation = s.nextOperation) : Effect env s s' :=
  .other [] (by rw [hexec]; rfl) (fun _ he => nomatch he) hoperations haccepted htaken
    (le_of_eq hnext.symm)

theorem Effect.one {event : Promise.Event ν η}
    (hexec : Promise.step env s.execution event = some s'.execution)
    (hevent : ∀ q, ¬ Promise.Resolves q event)
    (hoperations : s'.operations = s.operations) (haccepted : s'.accepted = s.accepted)
    (htaken : s'.taken = s.taken) (hnext : s'.nextOperation = s.nextOperation) :
    Effect env s s' := by
  refine .other [event] ?_ ?_ hoperations haccepted htaken (le_of_eq hnext.symm)
  · exact Option.bind_eq_some_iff.2 ⟨_, hexec, rfl⟩
  · intro e he q hq
    rw [List.mem_singleton.1 he] at hq
    exact absurd hq (hevent q)

variable {r : Resolution ν}

theorem effect_rejected (hnew : ∀ entry ∈ s.accepted, entry.2 < s.execution.nextPromise)
    (hexec : Promise.settle env (Promise.new s.execution).2 s.execution.nextPromise r = some
    s'.execution) (hoperations : s'.operations = s.operations)
    (haccepted : s'.accepted = s.accepted) (htaken : s'.taken = s.taken)
    (hnext : s.nextOperation ≤ s'.nextOperation) : Effect env s s' := by
  refine .other [.newPromise, .settle s.execution.nextPromise r] ?_ ?_ hoperations haccepted
    htaken hnext
  · exact Option.bind_eq_some_iff.2 ⟨_, rfl, Option.bind_eq_some_iff.2 ⟨_, hexec, rfl⟩⟩
  · have hstep : Promise.step env (Promise.new s.execution).2
        (.settle s.execution.nextPromise r) = some s'.execution := hexec
    have hmono : s.execution.nextPromise + 1 ≤ s'.execution.nextPromise :=
      (Promise.step_mono hstep).1
    intro e he q hq
    rcases List.mem_cons.1 he with rfl | he
    · exact absurd hq not_false
    · rw [List.mem_singleton.1 he] at hq
      have hq' : s.execution.nextPromise = q := hq
      subst hq'
      exact ⟨hmono, fun entry hentry => Nat.ne_of_lt (hnew entry hentry)⟩

theorem effect_finish (s : State ν η) : Effect env s (finish s) := .same rfl rfl rfl rfl rfl

theorem mayDo_foreign (h : mayDo s event = true) {q : ℕ} (hq : Promise.Resolves q event) :
    q < s.execution.nextPromise ∧ ∀ entry ∈ s.accepted, entry.2 ≠ q := by
  have hres := resolved?_eq hq
  unfold mayDo at h
  split at h
  · cases hres
  · cases hres
  · rw [hres] at h
    simpa using h

theorem effect_suspendMicrotask (s : State ν η) (awaited : Awaited ν) (r : Resolution ν) :
    Effect env s (suspendMicrotask s awaited r) := by
  have hexec : Promise.step env s.execution (.suspendMicrotask r) =
      some (suspendMicrotask s awaited r).execution := rfl
  exact .one hexec (fun _ hq => hq) rfl rfl rfl rfl

theorem effect_ran (hnew : ∀ entry ∈ s.accepted, entry.2 < s.execution.nextPromise)
    (h : Ran env s e s') : Effect env s s' := by
  cases h with
  | @script event execution hmay hexec =>
    refine .other [event] (Option.bind_eq_some_iff.2 ⟨_, hexec, rfl⟩) ?_ rfl rfl rfl (le_refl _)
    intro event' he q hq
    rw [List.mem_singleton.1 he] at hq
    obtain ⟨hlt, hne⟩ := mayDo_foreign hmay hq
    exact ⟨lt_of_lt_of_le hlt (Promise.step_mono hexec).1, hne⟩
  | refused => exact .same rfl rfl rfl rfl rfl
  | accepted hsize => exact .accepts _ hsize rfl rfl rfl rfl rfl
  | rejected hexec hnext => exact effect_rejected hnew hexec rfl rfl rfl hnext
  | awaits => exact .same rfl rfl rfl rfl rfl
  | awaitsSettled => exact effect_suspendMicrotask s _ _
  | awaitsValue => exact effect_suspendMicrotask s _ _
  | ends => exact .same rfl rfl rfl rfl rfl
  | finishes => exact effect_finish s

theorem effect_driveMicrotask (s : State ν η) (awaited : Awaited ν) :
    Effect env s (driveMicrotask s awaited) := by
  unfold driveMicrotask
  split
  · exact effect_finish s
  · rename_i r jobs hjobs
    have hexec : Promise.step env s.execution .runJob =
        some (thenResume s awaited r jobs).execution := by
      unfold Promise.step
      rw [hjobs]
      rfl
    exact .one hexec (fun _ hq => hq) rfl rfl rfl rfl
  · exact .same rfl rfl rfl rfl rfl

theorem effect_driveEventLoop {promise : ℕ} (h : driveEventLoop env s promise = some s') :
    Effect env s s' := by
  unfold driveEventLoop at h
  split at h
  · split at h
    · cases h
      exact .same rfl rfl rfl rfl rfl
    · cases h
      exact effect_finish s
  · cases h
    exact .same rfl rfl rfl rfl rfl
  · obtain ⟨execution, hexec, rfl⟩ := Option.map_eq_some_iff.1 h
    exact .one hexec (fun _ hq => hq) rfl rfl rfl rfl

theorem effect_driveStep (h : driveStep env s = some s') : Effect env s s' := by
  unfold driveStep at h
  split at h
  · cases h
    exact effect_driveMicrotask s _
  · cases h
    exact .same rfl rfl rfl rfl rfl
  · unfold awaitFinalPromise at h
    split at h
    · obtain ⟨state, -, h⟩ := Option.bind_eq_some_iff.1 h
      cases hr : state.result? with
      | none =>
        rw [hr] at h
        exact effect_driveEventLoop h
      | some r =>
        rw [hr] at h
        cases h
        exact effect_finish s
    · obtain ⟨execution, hexec, rfl⟩ := Option.map_eq_some_iff.1 h
      exact .one hexec (fun _ hq => hq) rfl rfl rfl rfl
  · cases h

variable {message : Message ν}

theorem settleHostReply_cases {ok : Bool} (h : settleHostReply env s message = some (ok, s')) :
    ok = false ∧ s' = s ∨ ok = true ∧ ∃ op o t, message.operation = .own op ∧
      s.operations.get? op = some o ∧
      Promise.settle env s.execution o.promise message.result = some t ∧
      s' = { s with
        execution := t
        operations := s.operations.delete op
        taken := s.taken ++ [(op, message.result)] } := by
  unfold settleHostReply at h
  split at h
  · cases h
    exact .inl ⟨rfl, rfl⟩
  · rename_i op hown
    split at h
    · cases h
      exact .inl ⟨rfl, rfl⟩
    · rename_i o hop
      obtain ⟨t, ht, he⟩ := Option.map_eq_some_iff.1 h
      cases he
      exact .inr ⟨rfl, op, o, t, hown, hop, ht, rfl⟩

theorem effect_receiveStep (h : receiveStep env s = some s') : Effect env s s' := by
  unfold receiveStep at h
  split at h
  · cases h
  · rename_i message mailbox hmailbox
    have hmem : message ∈ s.mailbox := by
      rw [hmailbox]
      exact List.mem_cons_self
    split at h
    · rename_i promise _
      obtain ⟨⟨ok, t⟩, ht, h⟩ := Option.bind_eq_some_iff.1 h
      rcases settleHostReply_cases ht with ⟨rfl, rfl⟩ | ⟨rfl, op, o, t', hown, hop, hsettle, rfl⟩
      · cases h
        exact .same rfl rfl rfl rfl rfl
      · have hmem' : (⟨.own op, message.result⟩ : Message ν) ∈ s.mailbox := by
          rw [← hown]
          exact hmem
        dsimp only at h
        rw [if_pos rfl] at h
        obtain ⟨state, -, rfl⟩ := Option.map_eq_some_iff.1 h
        cases state.result? with
        | none =>
          exact .takes op o message.result t' [] hmem' hop hsettle rfl (fun _ he => nomatch he)
            rfl rfl rfl rfl
        | some r =>
          refine .takes op o message.result t' [.suspendMicrotask r.resolution] hmem' hop hsettle
            rfl ?_ rfl rfl rfl rfl
          intro e he q hq
          rw [List.mem_singleton.1 he] at hq
          exact hq
    · obtain ⟨⟨ok, t⟩, ht, rfl⟩ := Option.map_eq_some_iff.1 h
      rcases settleHostReply_cases ht with ⟨rfl, rfl⟩ | ⟨rfl, op, o, t', hown, hop, hsettle, rfl⟩
      · exact .same rfl rfl rfl rfl rfl
      · have hmem' : (⟨.own op, message.result⟩ : Message ν) ∈ s.mailbox := by
          rw [← hown]
          exact hmem
        exact .takes op o message.result t' [] hmem' hop hsettle rfl (fun _ he => nomatch he)
          rfl rfl rfl rfl
    · cases h

/-- **One step.** -/
theorem step_effect (hnew : ∀ entry ∈ s.accepted, entry.2 < s.execution.nextPromise)
    (h : step env host s e = some s') : Effect env s s' := by
  cases step_cases h with
  | runs final hphase h => exact effect_ran hnew h
  | drives h => exact effect_driveStep h
  | receives h => exact effect_receiveStep h
  | replies ht => exact .same rfl rfl rfl rfl rfl
  | dies pid => exact .same rfl rfl rfl rfl rfl
  | duplicates hsent => exact .same rfl rfl rfl rfl rfl
  | strays n r => exact .same rfl rfl rfl rfl rfl

/-! ### Tasks and messages -/

/-- No task starts and no message arrives. -/
structure Calm (s s' : State ν η) : Prop where
  sent : s'.sent = s.sent
  mailbox : ∀ m ∈ s'.mailbox, m ∈ s.mailbox
  tasks : ∀ pid op, s'.tasks.get? pid = some op → s.tasks.get? pid = some op
  nextOperation : s.nextOperation ≤ s'.nextOperation
  nextPid : s'.nextPid = s.nextPid

inductive Traffic (s s' : State ν η) : Prop where
  | calm (h : Calm s s')
  | starts (hsent : s'.sent = s.sent) (hmailbox : s'.mailbox = s.mailbox)
      (htasks : s'.tasks = s.tasks.put s.nextPid s.nextOperation)
      (hop : s'.nextOperation = s.nextOperation + 1) (hpid : s'.nextPid = s.nextPid + 1)
  | replies (pid op : ℕ) (r : Resolution ν) (ht : s.tasks.get? pid = some op)
      (hsent : s'.sent = s.sent ++ [(op, r)]) (hmailbox : s'.mailbox = s.mailbox ++ [⟨.own op, r⟩])
      (htasks : s'.tasks = s.tasks.delete pid) (hop : s'.nextOperation = s.nextOperation)
      (hpid : s'.nextPid = s.nextPid)
  | arrives (message : Message ν)
      (hm : ∀ op, message.operation = .own op → (op, message.result) ∈ s.sent)
      (hsent : s'.sent = s.sent) (hmailbox : s'.mailbox = s.mailbox ++ [message])
      (htasks : s'.tasks = s.tasks) (hop : s'.nextOperation = s.nextOperation)
      (hpid : s'.nextPid = s.nextPid)

theorem Traffic.same (hsent : s'.sent = s.sent) (hmailbox : s'.mailbox = s.mailbox)
    (htasks : s'.tasks = s.tasks) (hop : s.nextOperation ≤ s'.nextOperation)
    (hpid : s'.nextPid = s.nextPid) : Traffic s s' :=
  .calm ⟨hsent, by rw [hmailbox]; exact fun _ h => h, by rw [htasks]; exact fun _ _ h => h, hop,
    hpid⟩

theorem traffic_finish (s : State ν η) : Traffic s (finish s) := by
  refine .calm ⟨rfl, fun _ h => h, fun pid op h => ?_, le_refl _, rfl⟩
  have h' : (s.tasks.filterKeys fun pid =>
      !(s.operations.toList.any fun entry => entry.2.pid = pid)).get? pid = some op := h
  rw [Assoc.get?_filterKeys] at h'
  split at h'
  · exact h'
  · cases h'

theorem traffic_driveStep (h : driveStep env s = some s') : Traffic s s' := by
  unfold driveStep at h
  split at h
  · cases h
    unfold driveMicrotask
    split
    · exact traffic_finish s
    · exact .same rfl rfl rfl (le_refl _) rfl
    · exact .same rfl rfl rfl (le_refl _) rfl
  · cases h
    exact .same rfl rfl rfl (le_refl _) rfl
  · unfold awaitFinalPromise at h
    split at h
    · obtain ⟨state, -, h⟩ := Option.bind_eq_some_iff.1 h
      cases hr : state.result? with
      | none =>
        rw [hr] at h
        dsimp only at h
        unfold driveEventLoop at h
        split at h
        · split at h
          · cases h
            exact .same rfl rfl rfl (le_refl _) rfl
          · cases h
            exact traffic_finish s
        · cases h
          exact .same rfl rfl rfl (le_refl _) rfl
        · obtain ⟨execution, -, rfl⟩ := Option.map_eq_some_iff.1 h
          exact .same rfl rfl rfl (le_refl _) rfl
      | some r =>
        rw [hr] at h
        cases h
        exact traffic_finish s
    · obtain ⟨execution, -, rfl⟩ := Option.map_eq_some_iff.1 h
      exact .same rfl rfl rfl (le_refl _) rfl
  · cases h

theorem traffic_receiveStep (h : receiveStep env s = some s') : Traffic s s' := by
  unfold receiveStep at h
  split at h
  · cases h
  · rename_i message mailbox hmailbox
    have hsame : ∀ t : State ν η, t.sent = s.sent → t.mailbox = mailbox → t.tasks = s.tasks →
        t.nextOperation = s.nextOperation → t.nextPid = s.nextPid → Traffic s t := by
      intro t h₁ h₂ h₃ h₄ h₅
      refine .calm ⟨h₁, fun m hm => ?_, by rw [h₃]; exact fun _ _ h => h, le_of_eq h₄.symm, h₅⟩
      rw [hmailbox]
      rw [h₂] at hm
      exact List.mem_cons_of_mem _ hm
    split at h
    · obtain ⟨⟨ok, t⟩, ht, h⟩ := Option.bind_eq_some_iff.1 h
      rcases settleHostReply_cases ht with ⟨rfl, rfl⟩ | ⟨rfl, op, o, t', -, -, -, rfl⟩
      · cases h
        exact hsame _ rfl rfl rfl rfl rfl
      · dsimp only at h
        rw [if_pos rfl] at h
        obtain ⟨state, -, rfl⟩ := Option.map_eq_some_iff.1 h
        cases state.result? with
        | none => exact hsame _ rfl rfl rfl rfl rfl
        | some r => exact hsame _ rfl rfl rfl rfl rfl
    · obtain ⟨⟨ok, t⟩, ht, rfl⟩ := Option.map_eq_some_iff.1 h
      rcases settleHostReply_cases ht with ⟨rfl, rfl⟩ | ⟨rfl, op, o, t', -, -, -, rfl⟩
      · exact hsame _ rfl rfl rfl rfl rfl
      · exact hsame _ rfl rfl rfl rfl rfl
    · cases h

theorem traffic_ran (h : Ran env s e s') : Traffic s s' := by
  cases h with
  | script => exact .same rfl rfl rfl (le_refl _) rfl
  | refused => exact .same rfl rfl rfl (le_refl _) rfl
  | accepted => exact .starts rfl rfl rfl rfl rfl
  | rejected hexec hnext => exact .same rfl rfl rfl hnext rfl
  | awaits => exact .same rfl rfl rfl (le_refl _) rfl
  | awaitsSettled => exact .same rfl rfl rfl (le_refl _) rfl
  | awaitsValue => exact .same rfl rfl rfl (le_refl _) rfl
  | ends => exact .same rfl rfl rfl (le_refl _) rfl
  | finishes => exact traffic_finish s

/-- **One step.** -/
theorem step_traffic (h : step env host s e = some s') : Traffic s s' := by
  cases step_cases h with
  | runs final hphase h => exact traffic_ran h
  | drives h => exact traffic_driveStep h
  | receives h => exact traffic_receiveStep h
  | @replies pid op r ht => exact .replies pid op r ht rfl rfl rfl rfl rfl
  | dies pid => exact .calm ⟨rfl, fun _ h => h, fun _ _ h => Assoc.get?_of_delete h, le_refl _, rfl⟩
  | @duplicates index op r hsent =>
    refine .arrives ⟨.own op, r⟩ (fun op' hop => ?_) rfl rfl rfl rfl rfl
    cases hop
    exact hsent
  | strays n r => exact .arrives ⟨.foreign n, r⟩ (fun op hop => nomatch hop) rfl rfl rfl rfl rfl

theorem Traffic.mono (h : Traffic s s') {entry : ℕ × Resolution ν} (he : entry ∈ s.sent) :
    entry ∈ s'.sent := by
  cases h with
  | calm h => rw [h.sent]; exact he
  | starts hsent => rw [hsent]; exact he
  | replies pid op r ht hsent => rw [hsent]; exact List.mem_append_left _ he
  | arrives message hm hsent => rw [hsent]; exact he

/-- A task sends one reply, for its own operation, and ends. -/
structure Mail (s : State ν η) : Prop where
  sent : ∀ op r, (⟨.own op, r⟩ : Message ν) ∈ s.mailbox → (op, r) ∈ s.sent
  once : (s.sent.map Prod.fst).Nodup
  sent_lt : ∀ entry ∈ s.sent, entry.1 < s.nextOperation
  task : ∀ pid op, s.tasks.get? pid = some op → op < s.nextOperation ∧ pid < s.nextPid ∧
    op ∉ s.sent.map Prod.fst
  own : ∀ pid pid' op, s.tasks.get? pid = some op → s.tasks.get? pid' = some op → pid = pid'

theorem Mail.calm (h : Mail s) (hc : Calm s s') : Mail s' := by
  constructor
  · intro op r hm
    rw [hc.sent]
    exact h.sent op r (hc.mailbox _ hm)
  · rw [hc.sent]
    exact h.once
  · intro entry he
    rw [hc.sent] at he
    exact lt_of_lt_of_le (h.sent_lt entry he) hc.nextOperation
  · intro pid op ht
    obtain ⟨hop, hpid, hsent⟩ := h.task pid op (hc.tasks pid op ht)
    rw [hc.sent, hc.nextPid]
    exact ⟨lt_of_lt_of_le hop hc.nextOperation, hpid, hsent⟩
  · exact fun pid pid' op ht ht' => h.own pid pid' op (hc.tasks _ _ ht) (hc.tasks _ _ ht')

theorem Mail.starts (h : Mail s) (hsent : s'.sent = s.sent) (hmailbox : s'.mailbox = s.mailbox)
    (htasks : s'.tasks = s.tasks.put s.nextPid s.nextOperation)
    (hop : s'.nextOperation = s.nextOperation + 1) (hpid : s'.nextPid = s.nextPid + 1) :
    Mail s' := by
  constructor
  · rw [hmailbox, hsent]
    exact h.sent
  · rw [hsent]
    exact h.once
  · rw [hsent, hop]
    exact fun entry he => Nat.lt_succ_of_lt (h.sent_lt entry he)
  · intro pid op ht
    rw [htasks] at ht
    rw [hsent, hop, hpid]
    rcases Assoc.get?_put_cases ht with ⟨rfl, rfl⟩ | ⟨-, ht⟩
    · refine ⟨Nat.lt_succ_self _, Nat.lt_succ_self _, fun hs => ?_⟩
      obtain ⟨entry, he, heq⟩ := List.mem_map.1 hs
      have hlt := h.sent_lt entry he
      omega
    · obtain ⟨hop, hpid, hsent⟩ := h.task pid op ht
      exact ⟨Nat.lt_succ_of_lt hop, Nat.lt_succ_of_lt hpid, hsent⟩
  · intro pid pid' op ht ht'
    rw [htasks] at ht ht'
    rcases Assoc.get?_put_cases ht with ⟨rfl, rfl⟩ | ⟨-, ht⟩
    · rcases Assoc.get?_put_cases ht' with ⟨rfl, -⟩ | ⟨-, ht'⟩
      · rfl
      · exact absurd (h.task _ _ ht').1 (Nat.lt_irrefl _)
    · rcases Assoc.get?_put_cases ht' with ⟨rfl, rfl⟩ | ⟨-, ht'⟩
      · exact absurd (h.task _ _ ht).1 (Nat.lt_irrefl _)
      · exact h.own pid pid' op ht ht'

theorem Mail.replies (h : Mail s) {pid op : ℕ} {r : Resolution ν}
    (ht : s.tasks.get? pid = some op) (hsent' : s'.sent = s.sent ++ [(op, r)])
    (hmailbox : s'.mailbox = s.mailbox ++ [⟨.own op, r⟩])
    (htasks : s'.tasks = s.tasks.delete pid) (hop' : s'.nextOperation = s.nextOperation)
    (hpid' : s'.nextPid = s.nextPid) : Mail s' := by
  obtain ⟨hop, hpid, hsent⟩ := h.task pid op ht
  have htask : ∀ pid' op', s'.tasks.get? pid' = some op' →
      pid' ≠ pid ∧ s.tasks.get? pid' = some op' := by
    intro pid' op' h'
    rw [htasks] at h'
    refine ⟨?_, Assoc.get?_of_delete h'⟩
    rintro rfl
    rw [Assoc.get?_delete] at h'
    cases h'
  constructor
  · intro op' r' hm
    rw [hmailbox] at hm
    rw [hsent']
    rcases List.mem_append.1 hm with hm | hm
    · exact List.mem_append_left _ (h.sent op' r' hm)
    · cases List.mem_singleton.1 hm
      exact List.mem_append_right _ List.mem_cons_self
  · rw [hsent', List.map_append, List.map_singleton]
    exact List.nodup_append.2 ⟨h.once, List.nodup_singleton _, fun a ha b hb => by
      rw [List.mem_singleton.1 hb]
      rintro rfl
      exact hsent ha⟩
  · intro entry he
    rw [hsent'] at he
    rw [hop']
    rcases List.mem_append.1 he with he | he
    · exact h.sent_lt entry he
    · rw [List.mem_singleton.1 he]
      exact hop
  · intro pid' op' h'
    obtain ⟨hne, h'⟩ := htask pid' op' h'
    obtain ⟨hlt, hlt', hnot⟩ := h.task pid' op' h'
    rw [hop', hpid', hsent', List.map_append]
    refine ⟨hlt, hlt', fun hs => ?_⟩
    rcases List.mem_append.1 hs with hs | hs
    · exact hnot hs
    · have heq : op' = op := List.mem_singleton.1 hs
      rw [heq] at h'
      exact hne (h.own pid' pid op h' ht)
  · intro pid₁ pid₂ op' h₁ h₂
    exact h.own pid₁ pid₂ op' (htask _ _ h₁).2 (htask _ _ h₂).2

theorem Mail.arrives (h : Mail s)
    (hm : ∀ op, message.operation = .own op → (op, message.result) ∈ s.sent)
    (hsent : s'.sent = s.sent) (hmailbox : s'.mailbox = s.mailbox ++ [message])
    (htasks : s'.tasks = s.tasks) (hop : s'.nextOperation = s.nextOperation)
    (hpid : s'.nextPid = s.nextPid) : Mail s' := by
  constructor
  · intro op r hmem
    rw [hmailbox] at hmem
    rw [hsent]
    rcases List.mem_append.1 hmem with hmem | hmem
    · exact h.sent op r hmem
    · have heq := List.mem_singleton.1 hmem
      have hmem' := hm op (by rw [← heq])
      rw [← heq] at hmem'
      exact hmem'
  · rw [hsent]
    exact h.once
  · rw [hsent, hop]
    exact h.sent_lt
  · rw [htasks, hop, hpid, hsent]
    exact h.task
  · rw [htasks]
    exact h.own

theorem Mail.traffic (h : Mail s) (ht : Traffic s s') : Mail s' := by
  cases ht with
  | calm hc => exact h.calm hc
  | starts hsent hmailbox htasks hop hpid => exact h.starts hsent hmailbox htasks hop hpid
  | replies pid op r ht hsent hmailbox htasks hop hpid =>
    exact h.replies ht hsent hmailbox htasks hop hpid
  | arrives message hm hsent hmailbox htasks hop hpid =>
    exact h.arrives hm hsent hmailbox htasks hop hpid

/-! ### The invariant -/

/-- The operation is outstanding: its promise is pending, and nothing else resolves it. -/
structure Outstanding (s : State ν η) (op : ℕ) (o : Operation) : Prop where
  accepted : (op, o.promise) ∈ s.accepted
  waits : op ∉ s.taken.map Prod.fst
  free : Free o.promise s.execution
  pending : s.execution.promises.get? o.promise = some .pending

/-- The reply `r` was taken, and has resolved the promise of the operation. -/
structure Answered (env : Env ν η) (s : State ν η) (op p : ℕ) (r : Resolution ν) : Prop where
  taken : (op, r) ∈ s.taken
  resolved : ResolvedWith env p r s.execution
  settled : ∀ result, r.settles? = some result →
    s.execution.promises.get? p = some (.settled result)

theorem Answered.run {op p : ℕ} {r : Resolution ν} (h : Answered env s op p r)
    (hl : Promise.Ledger s.execution) {es : List (Promise.Event ν η)}
    (hr : (Promise.machine env).GuardedRun (Leaves p) s.execution es s'.execution)
    (htaken : (op, r) ∈ s'.taken) : Answered env s' op p r := by
  obtain ⟨-, ⟨u, u', fs, hp, hsettle, hrun⟩, hsettled⟩ := h
  refine ⟨htaken, ⟨u, u', fs ++ es, hp, hsettle, hrun.append hr⟩, fun result hresult => ?_⟩
  exact Promise.settled_of_run hl hr (hsettled result hresult)

structure HostInvariant (env : Env ν η) (s : State ν η) : Prop where
  mail : Mail s
  unborn : ∀ p, s.execution.nextPromise ≤ p → Free p s.execution
  bounded : s.operations.size ≤ maxHostOperations
  outstanding : ∀ op o, s.operations.get? op = some o → Outstanding s op o
  complete : ∀ op p, (op, p) ∈ s.accepted →
    (∃ o, s.operations.get? op = some o ∧ o.promise = p) ∨
    s.operations.get? op = none ∧ ∃ r, Answered env s op p r
  accepted_lt : ∀ entry ∈ s.accepted,
    entry.1 < s.nextOperation ∧ entry.2 < s.execution.nextPromise
  accepted_once : (s.accepted.map Prod.fst).Nodup
  promises_once : (s.accepted.map Prod.snd).Nodup
  taken_sent : ∀ entry ∈ s.taken, entry ∈ s.sent
  taken_once : (s.taken.map Prod.fst).Nodup

theorem HostInvariant.ledger (h : HostInvariant env s) : Promise.Ledger s.execution :=
  (h.unborn _ (le_refl _) _ (le_refl _)).ledger

theorem initial_hostInvariant (heap : η) : HostInvariant env (initial heap : State ν η) := by
  constructor
  · constructor
    · exact fun op r hm => nomatch hm
    · exact List.nodup_nil
    · exact fun entry he => nomatch he
    · exact fun pid op ht => nomatch ht
    · exact fun pid pid' op ht => nomatch ht
  · exact fun p _ id _ => Promise.initial_before heap
  · exact Nat.zero_le _
  · exact fun op o ho => nomatch ho
  · exact fun op p hp => nomatch hp
  · exact fun entry he => nomatch he
  · exact List.nodup_nil
  · exact List.nodup_nil
  · exact fun entry he => nomatch he
  · exact List.nodup_nil

theorem nodup_concat {α : Type*} {l : List α} {a : α} (h : l.Nodup) (ha : a ∉ l) :
    (l ++ [a]).Nodup :=
  List.nodup_append.2 ⟨h, List.nodup_singleton _, fun b hb c hc => by
    rw [List.mem_singleton.1 hc]
    rintro rfl
    exact ha hb⟩

variable {es : List (Promise.Event ν η)}

theorem HostInvariant.other (h : HostInvariant env s) (hmail : Mail s')
    (hsent : ∀ entry ∈ s.sent, entry ∈ s'.sent)
    (hexec : (Promise.machine env).exec s.execution es = some s'.execution)
    (hforeign : Foreign s s'.execution.nextPromise es)
    (hoperations : s'.operations = s.operations) (haccepted : s'.accepted = s.accepted)
    (htaken : s'.taken = s.taken) (hnext : s.nextOperation ≤ s'.nextOperation) :
    HostInvariant env s' := by
  have hleaves : ∀ entry ∈ s.accepted,
      (Promise.machine env).GuardedRun (Leaves entry.2) s.execution es s'.execution :=
    fun entry he => Promise.run_of_exec hexec fun event hevent hq =>
      (hforeign event hevent _ hq).2 entry he rfl
  have hunborn : ∀ p, s'.execution.nextPromise ≤ p →
      (Promise.machine env).GuardedRun (Leaves p) s.execution es s'.execution :=
    fun p hp => Promise.run_of_exec hexec fun event hevent hq =>
      Nat.not_lt.2 hp (hforeign event hevent _ hq).1
  have hmono : s.execution.nextPromise ≤ s'.execution.nextPromise :=
    (Promise.run_mono (hunborn _ (le_refl _))).1
  constructor
  · exact hmail
  · intro p hp
    exact ((h.unborn p (le_trans hmono hp)).run (hunborn p hp) (.inl hp)).1
  · rw [hoperations]
    exact h.bounded
  · intro op o ho
    rw [hoperations] at ho
    obtain ⟨hmem, hwaits, hfree, hpending⟩ := h.outstanding op o ho
    obtain ⟨hfree', hsame⟩ := hfree.run (hleaves _ hmem) (.inr (h.accepted_lt _ hmem).2)
    refine ⟨?_, ?_, hfree', hsame.trans hpending⟩
    · rw [haccepted]
      exact hmem
    · rw [htaken]
      exact hwaits
  · intro op p hp
    rw [haccepted] at hp
    rw [hoperations]
    refine (h.complete op p hp).imp (fun h => h) fun ⟨hnone, r, hr⟩ =>
      ⟨hnone, r, hr.run h.ledger (hleaves _ hp) ?_⟩
    rw [htaken]
    exact hr.taken
  · intro entry he
    rw [haccepted] at he
    obtain ⟨h₁, h₂⟩ := h.accepted_lt entry he
    exact ⟨lt_of_lt_of_le h₁ hnext, lt_of_lt_of_le h₂ hmono⟩
  · rw [haccepted]
    exact h.accepted_once
  · rw [haccepted]
    exact h.promises_once
  · rw [htaken]
    exact fun entry he => hsent entry (h.taken_sent entry he)
  · rw [htaken]
    exact h.taken_once

theorem HostInvariant.accepts (h : HostInvariant env s) (hmail : Mail s')
    (hsent : ∀ entry ∈ s.sent, entry ∈ s'.sent) {pid : ℕ}
    (hsize : s.operations.size < maxHostOperations)
    (hexec : s'.execution = (Promise.new s.execution).2)
    (hoperations : s'.operations =
      s.operations.put s.nextOperation ⟨s.execution.nextPromise, pid⟩)
    (haccepted : s'.accepted = s.accepted ++ [(s.nextOperation, s.execution.nextPromise)])
    (htaken : s'.taken = s.taken) (hnext : s'.nextOperation = s.nextOperation + 1) :
    HostInvariant env s' := by
  have hnextPromise : s'.execution.nextPromise = s.execution.nextPromise + 1 := by
    rw [hexec]
    rfl
  have hfree : ∀ p, Free p s.execution → Free p s'.execution := by
    intro p hp
    rw [hexec]
    exact hp.new
  have hget : ∀ p ≠ s.execution.nextPromise,
      s'.execution.promises.get? p = s.execution.promises.get? p := by
    intro p hp
    rw [hexec]
    exact Assoc.get?_put_ne _ _ hp
  have hrun : ∀ p, (Promise.machine env).GuardedRun (Leaves p) s.execution [.newPromise]
      s'.execution := by
    intro p
    refine Promise.run_of_exec (congrArg some hexec.symm) fun event he hq => ?_
    rw [List.mem_singleton.1 he] at hq
    exact hq
  have hnone : s.operations.get? s.nextOperation = none := by
    cases ho : s.operations.get? s.nextOperation with
    | none => rfl
    | some o =>
      exact absurd (h.accepted_lt _ (h.outstanding _ o ho).accepted).1 (Nat.lt_irrefl _)
  have hold : ∀ entry ∈ s.accepted, entry.1 ≠ s.nextOperation ∧
      entry.2 ≠ s.execution.nextPromise := by
    intro entry he
    obtain ⟨h₁, h₂⟩ := h.accepted_lt entry he
    exact ⟨Nat.ne_of_lt h₁, Nat.ne_of_lt h₂⟩
  constructor
  · exact hmail
  · intro p hp
    rw [hnextPromise] at hp
    exact hfree p (h.unborn p (Nat.le_of_succ_le hp))
  · rw [hoperations, Assoc.size_eq_sumBy, Assoc.sumBy_put_new _ _ hnone, ← Assoc.size_eq_sumBy]
    omega
  · intro op o ho
    rw [hoperations] at ho
    rcases Assoc.get?_put_cases ho with ⟨rfl, rfl⟩ | ⟨-, ho⟩
    · refine ⟨?_, ?_, hfree _ (h.unborn _ (le_refl _)), ?_⟩
      · rw [haccepted]
        exact List.mem_append_right _ List.mem_cons_self
      · rw [htaken]
        intro hmem
        obtain ⟨entry, he, heq⟩ := List.mem_map.1 hmem
        have hlt := h.mail.sent_lt entry (h.taken_sent entry he)
        omega
      · rw [hexec]
        exact Assoc.get?_put ..
    · obtain ⟨hmem, hwaits, hp, hpending⟩ := h.outstanding op o ho
      refine ⟨?_, ?_, hfree _ hp, (hget _ (hold _ hmem).2).trans hpending⟩
      · rw [haccepted]
        exact List.mem_append_left _ hmem
      · rw [htaken]
        exact hwaits
  · intro op p hp
    rw [haccepted] at hp
    rw [hoperations]
    rcases List.mem_append.1 hp with hp | hp
    · rw [Assoc.get?_put_ne _ _ (hold _ hp).1]
      refine (h.complete op p hp).imp (fun h => h) fun ⟨hnone, r, hr⟩ =>
        ⟨hnone, r, hr.run h.ledger (hrun p) ?_⟩
      rw [htaken]
      exact hr.taken
    · cases List.mem_singleton.1 hp
      exact .inl ⟨_, Assoc.get?_put .., rfl⟩
  · intro entry he
    rw [haccepted] at he
    rw [hnext, hnextPromise]
    rcases List.mem_append.1 he with he | he
    · obtain ⟨h₁, h₂⟩ := h.accepted_lt entry he
      exact ⟨Nat.lt_succ_of_lt h₁, Nat.lt_succ_of_lt h₂⟩
    · rw [List.mem_singleton.1 he]
      exact ⟨Nat.lt_succ_self _, Nat.lt_succ_self _⟩
  · rw [haccepted, List.map_append]
    refine nodup_concat h.accepted_once fun hmem => ?_
    obtain ⟨entry, he, heq⟩ := List.mem_map.1 hmem
    exact (hold entry he).1 heq
  · rw [haccepted, List.map_append]
    refine nodup_concat h.promises_once fun hmem => ?_
    obtain ⟨entry, he, heq⟩ := List.mem_map.1 hmem
    exact (hold entry he).2 heq
  · rw [htaken]
    exact fun entry he => hsent entry (h.taken_sent entry he)
  · rw [htaken]
    exact h.taken_once

theorem HostInvariant.promise_inj (h : HostInvariant env s) {op op' p : ℕ}
    (h₁ : (op, p) ∈ s.accepted) (h₂ : (op', p) ∈ s.accepted) : op = op' :=
  congrArg Prod.fst (List.inj_on_of_nodup_map h.promises_once h₁ h₂ rfl)

variable {o : Operation} {op : ℕ}

theorem HostInvariant.takes (h : HostInvariant env s) (hmail : Mail s')
    (hsent : ∀ entry ∈ s.sent, entry ∈ s'.sent) (hmessage : ⟨.own op, r⟩ ∈ s.mailbox)
    (hop : s.operations.get? op = some o)
    (hsettle : Promise.settle env s.execution o.promise r = some t)
    (hexec : (Promise.machine env).exec t es = some s'.execution)
    (hquiet : ∀ event ∈ es, ∀ q, ¬ Promise.Resolves q event)
    (hoperations : s'.operations = s.operations.delete op) (haccepted : s'.accepted = s.accepted)
    (htaken : s'.taken = s.taken ++ [(op, r)]) (hnext : s'.nextOperation = s.nextOperation) :
    HostInvariant env s' := by
  obtain ⟨hmem, hwaits, hfree, hpending⟩ := h.outstanding op o hop
  have hstep : Promise.step env s.execution (.settle o.promise r) = some t := hsettle
  have hrest : ∀ p, (Promise.machine env).GuardedRun (Leaves p) t es s'.execution :=
    fun p => Promise.run_of_exec hexec fun event he => hquiet event he p
  have hrun : ∀ p ≠ o.promise, (Promise.machine env).GuardedRun (Leaves p) s.execution
      (.settle o.promise r :: es) s'.execution :=
    fun p hp => .cons (fun hq => hp (Eq.symm hq)) hstep (hrest p)
  have hmono : s.execution.nextPromise ≤ s'.execution.nextPromise :=
    le_trans (Promise.step_mono hstep).1 (Promise.run_mono (hrest 0)).1
  constructor
  · exact hmail
  · intro p hp
    have hne : p ≠ o.promise := by
      have hlt := (h.accepted_lt _ hmem).2
      have hlt' : o.promise < s.execution.nextPromise := hlt
      omega
    exact ((h.unborn p (le_trans hmono hp)).run (hrun p hne) (.inl hp)).1
  · rw [hoperations]
    have hsize := Assoc.sumBy_delete (fun _ _ => 1) hop
    rw [← Assoc.size_eq_sumBy, ← Assoc.size_eq_sumBy] at hsize
    have hbounded := h.bounded
    omega
  · intro op' o' ho
    rw [hoperations] at ho
    have ho' := Assoc.get?_of_delete ho
    have hne : op' ≠ op := by
      rintro rfl
      rw [Assoc.get?_delete] at ho
      cases ho
    obtain ⟨hmem', hwaits', hfree', hpending'⟩ := h.outstanding op' o' ho'
    have hne' : o'.promise ≠ o.promise := by
      intro heq
      rw [heq] at hmem'
      exact hne (h.promise_inj hmem' hmem)
    obtain ⟨hfree'', hsame⟩ := hfree'.run (hrun _ hne') (.inr (h.accepted_lt _ hmem').2)
    refine ⟨?_, ?_, hfree'', hsame.trans hpending'⟩
    · rw [haccepted]
      exact hmem'
    · rw [htaken, List.map_append]
      intro hin
      rcases List.mem_append.1 hin with hin | hin
      · exact hwaits' hin
      · exact hne (List.mem_singleton.1 hin)
  · intro op' p hp
    rw [haccepted] at hp
    rw [hoperations]
    by_cases heq : op' = op
    · subst heq
      have hentry : (op', p) = (op', o.promise) :=
        List.inj_on_of_nodup_map h.accepted_once hp hmem rfl
      cases hentry
      refine .inr ⟨Assoc.get?_delete .., r, ?_, ⟨s.execution, t, es, hpending, hsettle, hrest _⟩,
        fun result hresult => ?_⟩
      · rw [htaken]
        exact List.mem_append_right _ List.mem_cons_self
      · exact Promise.settled_of_run (Promise.step_ledger h.ledger hstep) (hrest o.promise)
          (Promise.settle_settles hresult hpending hsettle)
    · rw [Assoc.get?_delete_ne _ heq]
      have hne : p ≠ o.promise := by
        rintro rfl
        exact heq (h.promise_inj hp hmem)
      refine (h.complete op' p hp).imp (fun h => h) fun ⟨hnone, r', hr⟩ =>
        ⟨hnone, r', hr.run h.ledger (hrun p hne) ?_⟩
      rw [htaken]
      exact List.mem_append_left _ hr.taken
  · intro entry he
    rw [haccepted] at he
    obtain ⟨h₁, h₂⟩ := h.accepted_lt entry he
    rw [hnext]
    exact ⟨h₁, lt_of_lt_of_le h₂ hmono⟩
  · rw [haccepted]
    exact h.accepted_once
  · rw [haccepted]
    exact h.promises_once
  · rw [htaken]
    intro entry he
    rcases List.mem_append.1 he with he | he
    · exact hsent entry (h.taken_sent entry he)
    · rw [List.mem_singleton.1 he]
      exact hsent _ (h.mail.sent op r hmessage)
  · rw [htaken, List.map_append]
    exact nodup_concat h.taken_once hwaits

theorem step_hostInvariant (h : HostInvariant env s) (hstep : step env host s e = some s') :
    HostInvariant env s' := by
  have htraffic := step_traffic hstep
  have hmail := h.mail.traffic htraffic
  have hsent : ∀ entry ∈ s.sent, entry ∈ s'.sent := fun _ => htraffic.mono
  cases step_effect (fun entry he => (h.accepted_lt entry he).2) hstep with
  | other es hexec hforeign hoperations haccepted htaken hnext =>
    exact h.other hmail hsent hexec hforeign hoperations haccepted htaken hnext
  | accepts pid hsize hexec hoperations haccepted htaken hnext =>
    exact h.accepts hmail hsent hsize hexec hoperations haccepted htaken hnext
  | takes op o r t es hmessage hop hsettle hexec hforeign hoperations haccepted htaken hnext =>
    exact h.takes hmail hsent hmessage hop hsettle hexec hforeign hoperations haccepted htaken
      hnext

theorem reachable_hostInvariant (h : (machine env host).Reachable s) : HostInvariant env s := by
  refine h.invariant ?_ ?_
  · rintro s ⟨heap, rfl⟩
    exact initial_hostInvariant heap
  · intro s e s' hI he
    have hstep : step env host s e = some s' := he
    exact step_hostInvariant hI hstep

/-! ### A task that dies -/

structure Lost (op : ℕ) (s : State ν η) : Prop where
  known : op < s.nextOperation
  unsent : op ∉ s.sent.map Prod.fst
  gone : ∀ pid, s.tasks.get? pid ≠ some op

theorem Lost.traffic (h : Lost op s) (ht : Traffic s s') : Lost op s' := by
  cases ht with
  | calm hc =>
    refine ⟨lt_of_lt_of_le h.known hc.nextOperation, ?_, fun pid ht => h.gone pid (hc.tasks _ _ ht)⟩
    rw [hc.sent]
    exact h.unsent
  | starts hsent hmailbox htasks hop hpid =>
    have hknown := h.known
    refine ⟨by omega, ?_, fun pid ht => ?_⟩
    · rw [hsent]
      exact h.unsent
    · rw [htasks] at ht
      rcases Assoc.get?_put_cases ht with ⟨-, heq⟩ | ⟨-, ht⟩
      · omega
      · exact h.gone pid ht
  | replies pid op' r htask hsent hmailbox htasks hop hpid =>
    refine ⟨by rw [hop]; exact h.known, ?_, fun pid' ht => ?_⟩
    · rw [hsent, List.map_append]
      intro hmem
      rcases List.mem_append.1 hmem with hmem | hmem
      · exact h.unsent hmem
      · rw [List.mem_singleton.1 hmem] at h
        exact h.gone pid htask
    · rw [htasks] at ht
      exact h.gone pid' (Assoc.get?_of_delete ht)
  | arrives message hm hsent hmailbox htasks hop hpid =>
    refine ⟨by rw [hop]; exact h.known, ?_, ?_⟩
    · rw [hsent]
      exact h.unsent
    · rw [htasks]
      exact h.gone

/-- An operation whose task has died stays outstanding. -/
theorem lost_stays (h : HostInvariant env s) (hl : Lost op s) (hp : (op, p) ∈ s.accepted)
    {ok : State ν η → Event ν η → Prop} {es : List (Event ν η)}
    (hr : (machine env host).GuardedRun ok s es s') :
    Lost op s' ∧ (op, p) ∈ s'.accepted ∧ HostInvariant env s' := by
  refine hr.invariant (I := fun s => Lost op s ∧ (op, p) ∈ s.accepted ∧ HostInvariant env s) ?_
    ⟨hl, hp, h⟩
  rintro s e s' ⟨hl, hp, h⟩ - he
  have hstep : step env host s e = some s' := he
  refine ⟨hl.traffic (step_traffic hstep), ?_, step_hostInvariant h hstep⟩
  cases step_effect (fun entry he => (h.accepted_lt entry he).2) hstep with
  | other es hexec hforeign hoperations haccepted htaken hnext =>
    rw [haccepted]
    exact hp
  | accepts pid hsize hexec hoperations haccepted htaken hnext =>
    rw [haccepted]
    exact List.mem_append_left _ hp
  | takes op o r t es hmessage hop hsettle hexec hforeign hoperations haccepted htaken hnext =>
    rw [haccepted]
    exact hp

/-! ### The result -/

def Awaits (s : State ν η) (op p : ℕ) : Prop :=
  (∃ o, s.operations.get? op = some o ∧ o.promise = p) ∧
  s.execution.promises.get? p = some .pending ∧ op ∉ s.taken.map Prod.fst

/-- The operations, the promises and the replies belong together. -/
structure Correlated (env : Env ν η) (s : State ν η) : Prop where
  bounded : s.operations.size ≤ maxHostOperations
  registered : ∀ op o, s.operations.get? op = some o → (op, o.promise) ∈ s.accepted
  accepted_once : (s.accepted.map Prod.fst).Nodup
  promises_once : (s.accepted.map Prod.snd).Nodup
  exactly : ∀ op p, (op, p) ∈ s.accepted →
    Awaits s op p ∨ s.operations.get? op = none ∧ ∃ r, Answered env s op p r
  taken_once : (s.taken.map Prod.fst).Nodup
  taken_sent : ∀ entry ∈ s.taken, entry ∈ s.sent
  sent_once : (s.sent.map Prod.fst).Nodup

theorem HostInvariant.awaits (h : HostInvariant env s) {op : ℕ} {o : Operation}
    (ho : s.operations.get? op = some o) : Awaits s op o.promise :=
  ⟨⟨o, ho, rfl⟩, (h.outstanding op o ho).pending, (h.outstanding op o ho).waits⟩

theorem HostInvariant.correlated (h : HostInvariant env s) : Correlated env s := by
  refine ⟨h.bounded, fun op o ho => (h.outstanding op o ho).accepted, h.accepted_once,
    h.promises_once, fun op p hp => ?_, h.taken_once, h.taken_sent, h.mail.once⟩
  refine (h.complete op p hp).imp ?_ fun h => h
  rintro ⟨o, ho, rfl⟩
  exact h.awaits ho

theorem awaits_of_lost (h : HostInvariant env s) (hl : Lost op s) (hp : (op, p) ∈ s.accepted) :
    Awaits s op p := by
  rcases h.complete op p hp with ⟨o, ho, rfl⟩ | ⟨-, r, hr⟩
  · exact h.awaits ho
  · exact absurd (List.mem_map_of_mem (h.taken_sent _ hr.taken)) hl.unsent

variable {mailbox : List (Message ν)}

theorem receiveStep_stale (hmailbox : s.mailbox = message :: mailbox)
    (hstale : ∀ op, message.operation = .own op → s.operations.get? op = none)
    (h : receiveStep env s = some s') : s' = { s with mailbox } := by
  have hreply : settleHostReply env { s with mailbox } message =
      some (false, { s with mailbox }) := by
    unfold settleHostReply
    cases hm : message.operation with
    | foreign n => rfl
    | own op =>
      have hnone : ({ s with mailbox } : State ν η).operations.get? op = none := hstale op hm
      dsimp only
      rw [hnone]
  unfold receiveStep at h
  rw [hmailbox] at h
  dsimp only at h
  split at h
  · unfold receiveLegacy at h
    rw [hreply] at h
    cases h
    rfl
  · unfold receiveHostReply at h
    rw [hreply] at h
    cases h
    rfl
  · cases h

theorem receiveStep_own (hmailbox : s.mailbox = ⟨.own op, r⟩ :: mailbox)
    (ho : s.operations.get? op = some o) (h : receiveStep env s = some s') :
    s'.operations = s.operations.delete op ∧ s'.accepted = s.accepted ∧
      s'.taken = s.taken ++ [(op, r)] := by
  have ho' : ({ s with mailbox } : State ν η).operations.get? op = some o := ho
  have hreply : ∀ ok t, settleHostReply env { s with mailbox } ⟨.own op, r⟩ = some (ok, t) →
      ok = true ∧ t.operations = s.operations.delete op ∧ t.accepted = s.accepted ∧
        t.taken = s.taken ++ [(op, r)] := by
    intro ok t ht
    unfold settleHostReply at ht
    dsimp only at ht
    rw [ho'] at ht
    obtain ⟨execution, -, he⟩ := Option.map_eq_some_iff.1 ht
    cases he
    exact ⟨rfl, rfl, rfl, rfl⟩
  unfold receiveStep at h
  rw [hmailbox] at h
  dsimp only at h
  split at h
  · obtain ⟨⟨ok, t⟩, ht, h⟩ := Option.bind_eq_some_iff.1 h
    obtain ⟨rfl, hrest⟩ := hreply ok t ht
    dsimp only at h
    rw [if_pos rfl] at h
    obtain ⟨state, -, rfl⟩ := Option.map_eq_some_iff.1 h
    cases state.result? with
    | none => exact hrest
    | some r => exact hrest
  · obtain ⟨⟨ok, t⟩, ht, rfl⟩ := Option.map_eq_some_iff.1 h
    obtain ⟨rfl, hrest⟩ := hreply ok t ht
    exact hrest
  · cases h

/-- **Host operations are correlated with their replies.** -/
theorem host_operations (h : (machine env host).Reachable s) :
    Correlated env s ∧
    (∀ message mailbox s', s.mailbox = message :: mailbox →
      (∀ op, message.operation = .own op → s.operations.get? op = none) →
      step env host s .receive = some s' → s' = { s with mailbox }) ∧
    (∀ op o r mailbox s', s.mailbox = ⟨.own op, r⟩ :: mailbox →
      s.operations.get? op = some o → step env host s .receive = some s' →
      Answered env s' op o.promise r ∧ s'.operations = s.operations.delete op) ∧
    (∀ name start, maxHostOperations ≤ s.operations.size →
      startHostCall env host s (some name) start = some (.limitExceeded, s)) ∧
    (∀ op p, (op, p) ∈ s.accepted → Lost op s → ∀ es s', (machine env host).exec s es = some s' →
      Awaits s' op p) := by
  have hI := reachable_hostInvariant h
  refine ⟨hI.correlated, ?_, ?_, ?_, ?_⟩
  · intro message mailbox s' hmailbox hstale hstep
    exact receiveStep_stale hmailbox hstale hstep
  · intro op o r mailbox s' hmailbox ho hstep
    have hI' := step_hostInvariant hI hstep
    obtain ⟨hoperations, haccepted, htaken⟩ := receiveStep_own hmailbox ho hstep
    refine ⟨?_, hoperations⟩
    have hmem : (op, o.promise) ∈ s'.accepted := by
      rw [haccepted]
      exact (hI.outstanding op o ho).accepted
    have hnew : (op, r) ∈ s'.taken := by
      rw [htaken]
      exact List.mem_append_right _ List.mem_cons_self
    rcases hI'.complete op o.promise hmem with ⟨o', ho', -⟩ | ⟨-, r', hr'⟩
    · rw [hoperations, Assoc.get?_delete] at ho'
      cases ho'
    · have hsame : (op, r') = (op, r) :=
        List.inj_on_of_nodup_map hI'.taken_once hr'.taken hnew rfl
      cases hsame
      exact hr'
  · intro name start hsize
    show (if s.operations.size < maxHostOperations then _ else _) = _
    rw [if_neg (Nat.not_lt.2 hsize)]
  · intro op p hp hl es s' hexec
    obtain ⟨hl', hp', hI'⟩ := lost_stays hI hl hp (Machine.guardedRun_of_exec hexec)
    exact awaits_of_lost hI' hl' hp'

def echoHost : Host ℕ where
  handlers := [[101]]
  unknownHandler name := name.length
  handlerStartFailed reason := reason

/-- The reply of one call is taken, and a copy of it is dropped. -/
theorem host_operations_echo :
    ∃ s s' : State ℕ Unit, (machine Promise.plainEnv echoHost).exec (initial ())
      [.hostCall (some [101]) (.ok ()), .ends (.promise 0), .drive,
        .replies 0 (.ok (.plain (.term 5))), .duplicates 0, .receive] = some s ∧
      s.execution.promises.get? 0 = some (.settled (.ok (.term 5))) ∧
      Correlated Promise.plainEnv s ∧
      (step Promise.plainEnv echoHost s .drive = some s' ∧ s'.phase = .finished) := by
  have hruns : ∃ s s' : State ℕ Unit, (machine Promise.plainEnv echoHost).exec (initial ())
      [.hostCall (some [101]) (.ok ()), .ends (.promise 0), .drive,
        .replies 0 (.ok (.plain (.term 5))), .duplicates 0, .receive] = some s ∧
      s.execution.promises.get? 0 = some (.settled (.ok (.term 5))) ∧
      step Promise.plainEnv echoHost s .drive = some s' ∧ s'.phase = .finished :=
    ⟨_, _, rfl, rfl, rfl, rfl⟩
  obtain ⟨s, s', hexec, hsettled, hdrive, hphase⟩ := hruns
  have h := host_operations (Machine.reachable_of_exec ⟨(), rfl⟩ hexec)
  exact ⟨s, s', hexec, hsettled, h.1, hdrive, hphase⟩

/-- The task of an accepted call dies: no reply is ever taken, in whatever run. -/
theorem dead_task_never_replies :
    ∃ s : State ℕ Unit, (machine Promise.plainEnv echoHost).exec (initial ())
      [.hostCall (some [101]) (.ok ()), .dies 0] = some s ∧ (0, 0) ∈ s.accepted ∧
      ∀ es s', (machine Promise.plainEnv echoHost).exec s es = some s' →
        ¬ ∃ r, Answered Promise.plainEnv s' 0 0 r := by
  have hruns : ∃ s : State ℕ Unit, (machine Promise.plainEnv echoHost).exec (initial ())
      [.hostCall (some [101]) (.ok ()), .dies 0] = some s ∧ s.accepted = [(0, 0)] ∧
      s.nextOperation = 1 ∧ s.sent = [] ∧ s.tasks = ∅ := ⟨_, rfl, rfl, rfl, rfl, rfl⟩
  obtain ⟨s, hexec, haccepted, hnext, hsent, htasks⟩ := hruns
  have hmem : (0, 0) ∈ s.accepted := by
    rw [haccepted]
    exact List.mem_cons_self
  have hlost : Lost 0 s := by
    refine ⟨by rw [hnext]; exact Nat.one_pos, by rw [hsent]; exact List.not_mem_nil, ?_⟩
    rw [htasks]
    exact fun pid ht => nomatch ht
  refine ⟨s, hexec, hmem, fun es s' hrun => ?_⟩
  rintro ⟨r, hr⟩
  have hI := reachable_hostInvariant (Machine.reachable_of_exec ⟨(), rfl⟩ hexec)
  obtain ⟨hl', hp', hI'⟩ := lost_stays hI hlost hmem (Machine.guardedRun_of_exec hrun)
  exact (awaits_of_lost hI' hl' hp').2.2 (List.mem_map_of_mem hr.taken)

end QuickBeam.Vm.Runtime.EventLoop
