import QuickBeam.Vm.Runtime.Promise

/-!
# What the promise operations do, in small actions

Every operation of `Promise` is a chain of the actions of `Act`: each of them is one update of
the state with the condition under which the code makes it.  An invariant of promises is then
proved once for each action, and not for each operation.
-/

set_option linter.unusedSectionVars false

namespace QuickBeam.Vm.Runtime.Promise

open QuickBeam.Lib

variable {ν η : Type} {env : Env ν η} {s s' : State ν η}

/-! ### Waking -/

theorem wake_eq (s : State ν η) (p : ℕ) (r : Result ν) :
    s.wake p r =
      { s.setPromise p (.settled r) with
        waiters := s.waiters.delete p
        jobs := s.jobs ++ (s.waitersOf p).reverse.map fun w => w.job r
        history := s.history ++ (s.waitersOf p).reverse.map fun w => (some p, w.job r) } := by
  have hfold : ∀ (ws : List (Waiter ν)) (t : State ν η),
      ws.foldl (fun t w => t.enqueue (some p) (w.job r)) t =
        { t with
          jobs := t.jobs ++ ws.map fun w => w.job r
          history := t.history ++ ws.map fun w => (some p, w.job r) } := by
    intro ws
    induction ws with
    | nil =>
      intro t
      simp only [List.foldl_nil, List.map_nil, List.append_nil]
    | cons w ws ih =>
      intro t
      rw [List.foldl_cons, ih]
      simp only [State.enqueue, List.map_cons, List.append_assoc, List.singleton_append]
  rw [State.wake, hfold]
  rfl

/-! ### Actions -/

def Waiter.target? : Waiter ν → Option ℕ
  | .adopt target => some target
  | .finallyAdopt target _ => some target
  | _ => none

/-- The promise that is locked until the waiter becomes a job and the job runs. -/
def Waiter.locks? : Waiter ν → Option ℕ
  | .adopt target => some target
  | _ => none

def Taken (s : State ν η) (p : ℕ) : Prop :=
  ∃ st, s.promises.get? p = some st ∧ st ≠ .pending

/-- Two states that differ only in the heap, the aggregates and the reactions. -/
structure Same (s s' : State ν η) : Prop where
  promises : s'.promises = s.promises
  waiters : s'.waiters = s.waiters
  jobs : s'.jobs = s.jobs
  syncJobs : s'.syncJobs = s.syncJobs
  getters : s'.getters = s.getters
  assimilations : s'.assimilations = s.assimilations
  history : s'.history = s.history
  registered : s'.registered = s.registered
  nextPromise : s'.nextPromise = s.nextPromise
  nextRef : s.nextRef ≤ s'.nextRef

/-- One update, and when the code makes it. -/
inductive Act (s : State ν η) : State ν η → Prop where
  | same {s' : State ν η} (h : Same s s') : Act s s'
  | new : Act s (new s).2
  /-- A pending promise settles. -/
  | wake {p : ℕ} (r : Result ν) (hp : s.promises.get? p = some .pending) : Act s (s.wake p r)
  /-- A pending promise is locked by an unsettled promise, a thenable or a getter of `then`. -/
  | adopt {p q : ℕ} {st : PromiseState ν} (hp : s.promises.get? p = some .pending)
      (hq : s.promises.get? q = some st) (hst : st.result? = none) (hne : q ≠ p) :
      Act s ((s.setPromise p .resolving).addWaiter q (.adopt p))
  | assimilate {p : ℕ} (v : Plain ν) (c : Value ν) (hp : s.promises.get? p = some .pending) :
      Act s ((s.setPromise p .resolving).enqueue none (.assimilateThenable p v c))
  | read {p : ℕ} (v : Plain ν) (g : Value ν) (hp : s.promises.get? p = some .pending) :
      Act s ((s.setPromise p .resolving).enqueueSync ⟨p, v, g⟩)
  /-- A waiter that locks nothing, of an unsettled and of a settled promise. -/
  | wait {q : ℕ} {st : PromiseState ν} {w : Waiter ν} (hq : s.promises.get? q = some st)
      (hst : st.result? = none) (hw : w.locks? = none) : Act s (s.addWaiter q w)
  | late {q : ℕ} {r : Result ν} {w : Waiter ν} (hq : s.promises.get? q = some (.settled r))
      (hw : w.locks? = none) : Act s ((s.register q w false).enqueue (some q) (w.job r))
  /-- An adoption of a settled promise, once its target is taken. -/
  | immediate {q t : ℕ} {r : Result ν} {w : Waiter ν}
      (hq : s.promises.get? q = some (.settled r)) (hw : w.target? = some t) (ht : Taken s t) :
      Act s (s.register q w true)
  | resume (c : Coroutine) (r : Result ν) : Act s (s.enqueue none (.resumeCoroutine c r))

abbrev Acts : State ν η → State ν η → Prop := Relation.ReflTransGen Act

theorem Act.acts (h : Act s s') : Acts s s' := Relation.ReflTransGen.single h

theorem Same.acts (h : Same s s') : Acts s s' := (Act.same h).acts

/-- The numbers from `nextPromise` on are free. -/
def Fresh (s : State ν η) : Prop := ∀ p, s.nextPromise ≤ p → s.promises.get? p = none

variable {p q : ℕ} {st : PromiseState ν}

theorem Fresh.put (h : Fresh s) (hp : s.promises.get? p = some st) (st' : PromiseState ν)
    (hq : s.nextPromise ≤ q) : (s.promises.put p st').get? q = none := by
  rw [Assoc.get?_put_ne _ _ fun he => ?_]
  · exact h q hq
  · rw [he] at hq
    rw [h p hq] at hp
    cases hp

theorem Act.fresh (h : Act s s') (hf : Fresh s) : Fresh s' := by
  cases h with
  | same h =>
    intro p hp
    rw [h.promises]
    exact hf p (h.nextPromise ▸ hp)
  | new =>
    intro p hp
    have hne : p ≠ s.nextPromise := Nat.ne_of_gt hp
    exact (Assoc.get?_put_ne _ _ hne).trans (hf p (Nat.le_of_succ_le hp))
  | wake r hp =>
    rw [wake_eq]
    exact fun q hq => hf.put hp _ hq
  | adopt hp => exact fun q hq => hf.put hp _ hq
  | assimilate v c hp => exact fun q hq => hf.put hp _ hq
  | read v g hp => exact fun q hq => hf.put hp _ hq
  | wait => exact hf
  | late => exact hf
  | immediate => exact hf
  | resume => exact hf

theorem Act.promise (h : Act s s') (hf : Fresh s) (hp : s.promises.get? p = some st)
    (hst : st ≠ .pending) : s'.promises.get? p = some st := by
  have hput : ∀ {q : ℕ} (st' : PromiseState ν), s.promises.get? q = some .pending →
      (s.promises.put q st').get? p = some st := by
    intro q st' hq
    rw [Assoc.get?_put_ne _ _ fun he => ?_]
    · exact hp
    · rw [he, hq] at hp
      exact hst (Option.some.inj hp).symm
  cases h with
  | same h => rw [h.promises]; exact hp
  | new =>
    refine (Assoc.get?_put_ne _ _ fun he => ?_).trans hp
    rw [he, hf _ (le_refl _)] at hp
    cases hp
  | wake r hq => rw [wake_eq]; exact hput _ hq
  | adopt hq => exact hput _ hq
  | assimilate v c hq => exact hput _ hq
  | read v g hq => exact hput _ hq
  | wait => exact hp
  | late => exact hp
  | immediate => exact hp
  | resume => exact hp

theorem Acts.fresh (h : Acts s s') (hf : Fresh s) : Fresh s' := by
  induction h with
  | refl => exact hf
  | tail _ hact ih => exact hact.fresh ih

theorem Acts.promise (h : Acts s s') (hf : Fresh s) (hp : s.promises.get? p = some st)
    (hst : st ≠ .pending) : s'.promises.get? p = some st := by
  induction h with
  | refl => exact hp
  | tail hacts hact ih => exact hact.promise (Acts.fresh hacts hf) ih hst

theorem Acts.taken (h : Acts s s') (hf : Fresh s) (hp : Taken s p) : Taken s' p := by
  obtain ⟨st, hget, hst⟩ := hp
  exact ⟨st, h.promise hf hget hst, hst⟩

variable {r : Result ν}

theorem result?_eq_some (h : st.result? = some r) : st = .settled r := by
  cases st with
  | pending => cases h
  | resolving => cases h
  | settled r' => cases h; rfl

/-! ### The operations as chains of actions -/

theorem taken_put (promises : Assoc ℕ (PromiseState ν)) (p : ℕ) (hst : st ≠ .pending) :
    ∃ st', (promises.put p st).get? p = some st' ∧ st' ≠ .pending :=
  ⟨st, Assoc.get?_put _ _ _, hst⟩

theorem settleResult_acts (h : settleResult s p r = some s') : Acts s s' ∧ Taken s' p := by
  obtain ⟨st, hp, rfl⟩ := Option.map_eq_some_iff.1 h
  cases st with
  | pending =>
    refine ⟨(Act.wake r hp).acts, ?_⟩
    show Taken (s.wake p r) p
    rw [wake_eq]
    exact taken_put _ _ (fun he => nomatch he)
  | resolving => exact ⟨.refl, .resolving, hp, by rintro ⟨⟩⟩
  | settled r' => exact ⟨.refl, .settled r', hp, by rintro ⟨⟩⟩

variable {v : Plain ν}

theorem settlePlain_acts (h : settlePlain env s p v = some s') : Acts s s' ∧ Taken s' p := by
  cases v with
  | term v => exact settleResult_acts h
  | object id =>
    obtain ⟨st, hp, h⟩ := Option.bind_eq_some_iff.1 h
    cases st with
    | pending =>
      dsimp only at h
      split at h
      · cases h
        exact ⟨(Act.assimilate _ _ hp).acts, taken_put _ _ (by rintro ⟨⟩)⟩
      · cases h
        exact ⟨(Act.read _ _ hp).acts, taken_put _ _ (by rintro ⟨⟩)⟩
      · exact settleResult_acts h
    | resolving => cases h; exact ⟨.refl, .resolving, hp, by rintro ⟨⟩⟩
    | settled r' => cases h; exact ⟨.refl, .settled r', hp, by rintro ⟨⟩⟩

theorem settleAs_acts (h : settleAs env s p r = some s') : Acts s s' ∧ Taken s' p := by
  cases r with
  | ok v => exact settlePlain_acts h
  | error reason => exact settleResult_acts h

variable {w : Waiter ν}

theorem immediate_acts (hf : Fresh s) {r r' : Result ν}
    (hq : s.promises.get? q = some (.settled r)) (hw : w.target? = some p)
    (h : (settleAs env s p r').map (·.register q w true) = some s') : Acts s s' ∧ Taken s' p := by
  obtain ⟨t, ht, rfl⟩ := Option.map_eq_some_iff.1 h
  obtain ⟨hacts, htaken⟩ := settleAs_acts ht
  have hq' := hacts.promise hf hq (fun he => nomatch he)
  exact ⟨hacts.tail (.immediate hq' hw htaken), htaken⟩

theorem settle_acts (hf : Fresh s) {r : Resolution ν} (h : settle env s p r = some s') :
    Acts s s' ∧ Taken s' p := by
  unfold settle at h
  split at h
  · rename_i q
    split at h
    · exact settleResult_acts h
    · rename_i hne
      obtain ⟨st, hp, h⟩ := Option.bind_eq_some_iff.1 h
      cases st with
      | pending =>
        obtain ⟨source, hq, h⟩ := Option.bind_eq_some_iff.1 h
        cases hr : source.result? with
        | none =>
          rw [hr] at h
          cases h
          exact ⟨(Act.adopt hp hq hr hne).acts, taken_put _ _ (by rintro ⟨⟩)⟩
        | some r' =>
          rw [hr] at h
          rw [result?_eq_some hr] at hq
          exact immediate_acts hf hq rfl h
      | resolving => cases h; exact ⟨.refl, .resolving, hp, by rintro ⟨⟩⟩
      | settled r' => cases h; exact ⟨.refl, .settled r', hp, by rintro ⟨⟩⟩
  · exact settlePlain_acts h
  · exact settleResult_acts h

theorem settleAssimilated_cases (hf : Fresh s) {r : Resolution ν}
    (h : settleAssimilated env s p r = some s') : s.promises.get? p ≠ some .resolving ∧ s' = s ∨
      s.promises.get? p = some .resolving ∧ Acts (s.setPromise p .pending) s' ∧ Taken s' p := by
  obtain ⟨st, hp, h⟩ := Option.bind_eq_some_iff.1 h
  rw [hp]
  cases st with
  | resolving =>
    have hf' : Fresh (s.setPromise p .pending) := fun q hq => hf.put hp _ hq
    exact .inr ⟨rfl, settle_acts hf' h⟩
  | pending => cases h; exact .inl ⟨by simp, rfl⟩
  | settled r' => cases h; exact .inl ⟨by simp, rfl⟩

theorem fulfillAssimilated_cases (h : fulfillAssimilated s p v = some s') :
    s.promises.get? p ≠ some .resolving ∧ s' = s ∨
      s.promises.get? p = some .resolving ∧ Acts (s.setPromise p .pending) s' ∧ Taken s' p := by
  obtain ⟨st, hp, h⟩ := Option.bind_eq_some_iff.1 h
  rw [hp]
  cases st with
  | resolving => exact .inr ⟨rfl, settleResult_acts h⟩
  | pending => cases h; exact .inl ⟨by simp, rfl⟩
  | settled r' => cases h; exact .inl ⟨by simp, rfl⟩

theorem attach_acts (hw : w.locks? = none) (h : attach s q w = some s') : Acts s s' := by
  obtain ⟨st, hq, rfl⟩ := Option.map_eq_some_iff.1 h
  cases hr : st.result? with
  | none => exact (Act.wait hq hr hw).acts
  | some r =>
    rw [result?_eq_some hr] at hq
    exact (Act.late hq hw).acts

theorem new_acts (s : State ν η) : Acts s (new s).2 := Act.new.acts

theorem settleAfterFinally_acts (hf : Fresh s) {original : Result ν}
    (h : settleAfterFinally env s q p original = some s') : Acts s s' := by
  obtain ⟨st, hq, h⟩ := Option.bind_eq_some_iff.1 h
  cases hr : st.result? with
  | none =>
    rw [hr] at h
    cases h
    exact (Act.wait hq hr rfl).acts
  | some r =>
    rw [hr] at h
    rw [result?_eq_some hr] at hq
    exact (immediate_acts hf hq rfl h).1

theorem fromValue_acts {v : Value ν} (h : fromValue env s v = some (p, s')) : Acts s s' := by
  cases v with
  | promise q => cases h; exact .refl
  | plain v =>
    obtain ⟨t, ht, he⟩ := Option.map_eq_some_iff.1 h
    cases he
    exact (new_acts s).trans (settlePlain_acts ht).1

theorem aggregateValues_acts (id : ℕ) : ∀ (values : List (Value ν × ℕ)) (s s' : State ν η),
    values.foldlM (aggregateValue env id) s = some s' → Acts s s'
  | [], s, s', h => by
    cases h
    exact .refl
  | v :: vs, s, s', h => by
    rw [List.foldlM_cons] at h
    obtain ⟨t, ht, h⟩ := Option.bind_eq_some_iff.1 h
    obtain ⟨⟨q, u⟩, hu, ht⟩ := Option.bind_eq_some_iff.1 ht
    have hattach : Acts u t := attach_acts rfl ht
    exact ((fromValue_acts hu).trans hattach).trans (aggregateValues_acts id vs t s' h)

theorem aggregateInto_acts (hf : Fresh s) {kind : AggregateKind} {values : List (Value ν)}
    (h : aggregateInto env s p kind values = some s') : Acts s s' := by
  unfold aggregateInto at h
  split at h
  · cases kind with
    | all => exact (settle_acts hf h).1
    | allSettled => exact (settle_acts hf h).1
    | any => exact (settle_acts hf h).1
    | race => cases h; exact .refl
  · have hsame : Same s { s with
        aggregates := s.aggregates.put s.nextRef ⟨kind, p, values.length, ∅⟩
        nextRef := s.nextRef + 1 } :=
      ⟨rfl, rfl, rfl, rfl, rfl, rfl, rfl, rfl, rfl, Nat.le_succ _⟩
    exact hsame.acts.trans (aggregateValues_acts _ _ _ _ h)

theorem setAggregates_same (s : State ν η) (aggregates : Assoc ℕ (Aggregate ν)) :
    Same s { s with aggregates := aggregates } :=
  ⟨rfl, rfl, rfl, rfl, rfl, rfl, rfl, rfl, rfl, le_refl _⟩

theorem closeAggregate_acts (hf : Fresh s) {id p : ℕ} {r : Resolution ν}
    (h : settle env { s with aggregates := s.aggregates.delete id } p r = some s') :
    Acts s s' :=
  (setAggregates_same s (s.aggregates.delete id)).acts.trans
    (settle_acts (s := { s with aggregates := s.aggregates.delete id }) hf h).1

theorem finishOrStore_acts (hf : Fresh s) {id : ℕ} {aggregate : Aggregate ν}
    {finish : List (Value ν) → Resolution ν}
    (h : finishOrStore env s id aggregate finish = some s') : Acts s s' := by
  unfold finishOrStore at h
  split at h
  · obtain ⟨values, -, h⟩ := Option.bind_eq_some_iff.1 h
    exact closeAggregate_acts hf h
  · cases h
    exact (setAggregates_same s _).acts

theorem settleAggregate_acts (hf : Fresh s) {id index : ℕ}
    (h : settleAggregate env s id index r = some s') : Acts s s' := by
  unfold settleAggregate at h
  split at h
  · cases h
    exact .refl
  · unfold updateAggregate at h
    split at h
    · exact closeAggregate_acts hf h
    · exact finishOrStore_acts hf h
    · exact closeAggregate_acts hf h
    · exact finishOrStore_acts hf h
    · exact finishOrStore_acts hf h
    · exact closeAggregate_acts hf h
    · exact finishOrStore_acts hf h

theorem completeReaction_acts (hf : Fresh s) {boundary : ReactionBoundary ν} {v : Value ν}
    (h : completeReaction env s boundary v = some s') : Acts s s' := by
  unfold completeReaction at h
  split at h
  · exact (settle_acts hf h).1
  · obtain ⟨⟨q, t⟩, ht, h⟩ := Option.bind_eq_some_iff.1 h
    have hacts := fromValue_acts ht
    exact hacts.trans (settleAfterFinally_acts (hacts.fresh hf) h)

/-! ### One step -/

/-- What a step takes from the queues and the boundaries before it acts: no promise, waiter or
registration, and at most the first job. -/
structure Taking (s s' : State ν η) : Prop where
  promises : s'.promises = s.promises
  waiters : s'.waiters = s.waiters
  history : s'.history = s.history
  registered : s'.registered = s.registered
  nextPromise : s'.nextPromise = s.nextPromise
  jobs : s'.jobs = s.jobs ∨ ∃ job, s.jobs = job :: s'.jobs

theorem Taking.refl (s : State ν η) : Taking s s := ⟨rfl, rfl, rfl, rfl, rfl, .inl rfl⟩

theorem Taking.fresh (h : Taking s s') (hf : Fresh s) : Fresh s' := by
  intro p hp
  rw [h.promises]
  exact hf p (h.nextPromise ▸ hp)

/-- The rest of a step: a chain of actions, possibly after a promise is unlocked, the job of a
`then` that a getter returned, or the microtask of suspended top-level code. -/
inductive Rest (e : Event ν η) (s s' : State ν η) : Prop where
  | acts (h : Acts s s')
  | unlock (p : ℕ) (hp : s.promises.get? p = some .resolving)
      (h : Acts (s.setPromise p .pending) s') (ht : Taken s' p)
  | assimilate (p : ℕ) (v : Plain ν) (c : Value ν)
      (h : s' = s.enqueue none (.assimilateThenable p v c))
  | microtask (r : Resolution ν) (he : e = .suspendMicrotask r)
      (h : s' = s.enqueue none (.microtask r))

variable {e : Event ν η}

theorem rest_of_cases
    (h : s.promises.get? p ≠ some .resolving ∧ s' = s ∨ s.promises.get? p = some .resolving ∧
    Acts (s.setPromise p .pending) s' ∧ Taken s' p) : Rest e s s' := by
  rcases h with ⟨-, rfl⟩ | ⟨hp, hacts, ht⟩
  · exact .acts .refl
  · exact .unlock p hp hacts ht

/-- The promise that the job may settle although it is locked. -/
def Job.resolves? : Job ν → Option ℕ
  | .settleAssimilated p _ => some p
  | .assimilateThenable p _ _ => some p
  | _ => none

theorem runJob_acts (hf : Fresh s) {job : Job ν} (hjob : job.resolves? = none)
    (h : runJob env s job = some s') : Acts s s' := by
  cases job with
  | resumeCoroutine c r => cases h; exact .refl
  | microtask r => cases h; exact .refl
  | runReaction rx r =>
    simp only [runJob] at h
    split at h
    · cases h
      have hsame : Same s { s with
          reactions := s.reactions.put s.nextRef ⟨rx.resultPromise, rx.kind, r⟩
          nextRef := s.nextRef + 1 } :=
        ⟨rfl, rfl, rfl, rfl, rfl, rfl, rfl, rfl, rfl, Nat.le_succ _⟩
      exact hsame.acts
    · exact (settle_acts hf h).1
  | settleAssimilated p r => cases hjob
  | settlePromise p r => exact (settle_acts hf h).1
  | aggregateSettle id index r => exact settleAggregate_acts hf h
  | assimilateThenable p v c => cases hjob

theorem markCalled_taking (s : State ν η) (a : ℕ) (as : Assimilation) :
    Taking s (s.markCalled a as) := by
  unfold State.markCalled
  split
  · exact .refl s
  · exact ⟨rfl, rfl, rfl, rfl, rfl, .inl rfl⟩

theorem Taking.done (h : Taking s s') : ∃ s₁, Taking s s₁ ∧ Rest e s₁ s' :=
  ⟨s', h, .acts .refl⟩

/-- **One step.**  A step takes something, and then acts. -/
theorem step_rest (hf : Fresh s) (h : step env s e = some s') :
    ∃ s₁, Taking s s₁ ∧ Rest e s₁ s' := by
  cases e with
  | setHeap heap =>
    cases h
    exact Taking.done ⟨rfl, rfl, rfl, rfl, rfl, .inl rfl⟩
  | newPromise =>
    cases h
    exact ⟨s, .refl s, .acts (new_acts s)⟩
  | react source kind f g =>
    have hattach : Acts (new s).2 s' := attach_acts rfl h
    exact ⟨s, .refl s, .acts ((new_acts s).trans hattach)⟩
  | await source c => exact ⟨s, .refl s, .acts (attach_acts rfl h)⟩
  | awaitImmediate c r =>
    cases h
    exact ⟨s, .refl s, .acts (Act.resume c r).acts⟩
  | suspendMicrotask r =>
    cases h
    exact ⟨s, .refl s, .microtask r rfl rfl⟩
  | fromValue v =>
    obtain ⟨⟨p, t⟩, ht, rfl⟩ := Option.map_eq_some_iff.1 h
    exact ⟨s, .refl s, .acts (fromValue_acts ht)⟩
  | aggregateInto p kind values => exact ⟨s, .refl s, .acts (aggregateInto_acts hf h)⟩
  | settle p r => exact ⟨s, .refl s, .acts (settle_acts hf h).1⟩
  | callResolver a r =>
    obtain ⟨as, -, h⟩ := Option.bind_eq_some_iff.1 h
    have htake := markCalled_taking s a as
    exact ⟨_, htake, rest_of_cases (settleAssimilated_cases (htake.fresh hf) h)⟩
  | readThenable =>
    simp only [step] at h
    split at h
    · cases h
    · cases h
      exact Taking.done ⟨rfl, rfl, rfl, rfl, rfl, .inl rfl⟩
  | getterReturns g v =>
    obtain ⟨boundary, -, h⟩ := Option.bind_eq_some_iff.1 h
    refine ⟨{ s with getters := s.getters.delete g }, ⟨rfl, rfl, rfl, rfl, rfl, .inl rfl⟩, ?_⟩
    unfold completeThenGetter at h
    split at h
    · cases h
      exact .assimilate _ _ _ rfl
    · exact rest_of_cases (fulfillAssimilated_cases h)
  | getterThrows g reason =>
    obtain ⟨boundary, -, h⟩ := Option.bind_eq_some_iff.1 h
    have htake : Taking s { s with getters := s.getters.delete g } :=
      ⟨rfl, rfl, rfl, rfl, rfl, .inl rfl⟩
    exact ⟨_, htake, rest_of_cases (settleAssimilated_cases (htake.fresh hf) h)⟩
  | reactionReturns id v =>
    obtain ⟨boundary, -, h⟩ := Option.bind_eq_some_iff.1 h
    have htake : Taking s { s with reactions := s.reactions.delete id } :=
      ⟨rfl, rfl, rfl, rfl, rfl, .inl rfl⟩
    exact ⟨_, htake, .acts (completeReaction_acts (htake.fresh hf) h)⟩
  | reactionThrows id reason =>
    obtain ⟨boundary, -, h⟩ := Option.bind_eq_some_iff.1 h
    have htake : Taking s { s with reactions := s.reactions.delete id } :=
      ⟨rfl, rfl, rfl, rfl, rfl, .inl rfl⟩
    exact ⟨_, htake, .acts (settle_acts (htake.fresh hf) h).1⟩
  | runJob =>
    simp only [step] at h
    split at h
    · cases h
    · rename_i job rest hjobs
      have htake : Taking s { s with jobs := rest } :=
        ⟨rfl, rfl, rfl, rfl, rfl, .inr ⟨job, hjobs⟩⟩
      cases hjob : job.resolves? with
      | none => exact ⟨_, htake, .acts (runJob_acts (htake.fresh hf) hjob h)⟩
      | some p =>
        cases job with
        | settleAssimilated p r =>
          exact ⟨_, htake, rest_of_cases (settleAssimilated_cases (htake.fresh hf) h)⟩
        | assimilateThenable p v c =>
          cases h
          exact Taking.done ⟨rfl, rfl, rfl, rfl, rfl, .inr ⟨_, hjobs⟩⟩
        | _ => cases hjob

end QuickBeam.Vm.Runtime.Promise
